import MmHalow.Ctrl.Sweeps
import MmHalow.Lib.History

/-!
# Scanning while the radio is idle (`mm_halow_wifi_scan_cached`, `link_status`)

`mm_halow_wifi_scan_cached` requests a sweep only while `link_status` is `MM_HALOW_LINK_DOWN`. The link
status is written by `mm_halow_wifi_join`, `mm_halow_wifi_leave`, `mm_halow_wifi_set_up`,
`mm_halow_init`, `mm_halow_deinit` and two callbacks; whether an association is up or on its way is a
matter of what morselib has answered and reported (`association`).

* `linkKnown_run`: with no association and no join in flight, `link_status` is `MM_HALOW_LINK_DOWN`
  or `MM_HALOW_LINK_FAIL`.
* `asks_iff`: what a call left to itself asks for first, by evaluation.
* `scan_available_iff`: **then a scan requests a sweep, unless one is active, exactly where the link
  status is not `MM_HALOW_LINK_FAIL`**, whatever came before, as long as no association begins within
  a leave of the station (`parted`).
* `refused_join_blocks`: after a join that morselib refuses no sweep is requested.
-/

namespace MmHalow.Ctrl

open MmHalow.Lib

/-! ## Associations -/

/-- What an answer says of the association: `mmwlan_sta_enable` begins one, `mmwlan_sta_disable` ends
it. -/
def Ask.associates : (q : Ask) → q.Ans → Bool → Bool
  | .mmwlan (.staEnable _), (st : Status), _ => st == .success
  | .mmwlan .staDisable, _, _ => false
  | _, _, g => g

/-- What a callback says of it. -/
def Callback.associates : Callback → Bool → Bool
  | .sta st, _ => st != .disabled
  | .fatal, _ => false
  | _, g => g

/-- **Whether an association is up or on its way**: morselib has begun one or reported one since it
last refused, ended or lost one. -/
def association : History Ask Ask.Ans Callback Bool := ⟨Ask.associates, Callback.associates⟩

/-- `mm_halow_wifi_leave` of the station. -/
def Call.parts : Call → Bool
  | leave itf => itf != 1
  | _ => false

/-- A leave of the station is in progress. -/
def departing (is : List Doing) : Bool := is.any (·.call.parts)

/-- Within a leave of the station nothing begins an association. -/
def parted (is : List Doing) : Happening → Bool
  | .call (.join _) => !departing is
  | .cb (.sta st) => st == .disabled || !departing is
  | _ => true

/-- The link is down, or has failed. -/
def LinkOff (s : State) : Prop := s.linkStatus = .down ∨ s.linkStatus = .fail

/-- **Without an association the link is off.** -/
def LinkKnown (v : State × Bool) : Prop := v.2 = false → LinkOff v.1

/-- The calls in progress. -/
abbrev doings (is : List (Info (State × Bool) Ask Ask.Ans Call)) : List Doing := is.map Info.alone

/-- The specification: a call made outside of a join keeps the link known, and one made within a
leave keeps it off. -/
def linkSpec (b : Build) : Spec ((world b).recording association) where
  ok is _ e := parted (doings is) e = true
  during is v w := (¬ Joining (doings is) → LinkKnown v → LinkKnown w) ∧
    (departing (doings is) = true → LinkOff v.1 → LinkOff w.1)
  entry is v := ¬ Joining (doings is) → LinkKnown v
  guard _ _ _ := True
  post _ _ _ := True
  idle := LinkKnown

variable {b : Build} {s : State} {v w : State × Bool} {e : Callback} {c : Call}

/-! ## Callbacks -/

/-- Only the two callbacks write the link status. -/
theorem linkStatus_callback (h : ∀ st, e ≠ .sta st) (hf : e ≠ .fatal) :
    (callback b e s).linkStatus = s.linkStatus := by
  cases e with
  | sta st => exact absurd rfl (h st)
  | fatal => exact absurd rfl hf
  | scanRx r =>
    simp only [callback, scanRxCb]
    split <;> rfl
  | _ => rfl

theorem LinkOff.callback (h : LinkOff s) (he : ∀ st, e = .sta st → st = .disabled) :
    LinkOff (callback b e s) := by
  by_cases hst : ∃ st, e = .sta st
  · obtain ⟨st, rfl⟩ := hst
    obtain rfl := he st rfl
    exact .inl rfl
  · by_cases hf : e = .fatal
    · subst hf
      exact .inr rfl
    · unfold LinkOff
      rw [linkStatus_callback (fun st hs => hst ⟨st, hs⟩) hf]
      exact h

theorem LinkKnown.callback (h : LinkKnown v) :
    LinkKnown (((world b).recording association).callback e v) := by
  intro hg
  cases e with
  | sta st =>
    have hst : st = .disabled := bne_eq_false_iff_eq.mp hg
    subst hst
    exact .inl rfl
  | fatal => exact .inr rfl
  | _ => exact LinkOff.callback (h hg) nofun

variable {κ : Around (State × Bool) Ask Ask.Ans Call} {l : Lib.Log Ask Ask.Ans}

theorem steady_linkOff (h : departing (doings (κ.infos l)) = true) :
    (linkSpec b).SteadyIn (κ.infos l) fun v => LinkOff v.1 := by
  intro v e hok hv
  refine LinkOff.callback hv fun st he => ?_
  subst he
  have hok : (st == .disabled || !departing (doings (κ.infos l))) = true := hok
  rw [h, Bool.not_true, Bool.or_false] at hok
  exact beq_iff_eq.mp hok

/-! ## Code that takes the link down at most -/

/-- The assignment leaves the link status alone or takes the link down. -/
def KeepsLink (f : State → State) : Prop :=
  ∀ s, (f s).linkStatus = s.linkStatus ∨ (f s).linkStatus = .down

/-- The answer says nothing of the association. -/
def Silent (q : Ask) : Prop := ∀ a g, q.associates a g = g

theorem LinkOff.keeps {f : State → State} (hf : KeepsLink f) (h : LinkOff s) : LinkOff (f s) := by
  obtain heq | heq := hf s
  · exact h.imp heq.trans heq.trans
  · exact .inl heq

/-- Neither asking nor an answer writes the link status. -/
theorem linkStatus_enter {q : Ask} : (enter b c q s).linkStatus = s.linkStatus := by
  obtain ⟨n, m, h⟩ := enter_inner (b := b) (c := c) q s
  rw [h]

theorem linkStatus_leave {q : Ask} {a : q.Ans} : (leave b c q a s).linkStatus = s.linkStatus := by
  obtain ⟨n, m, h⟩ := leave_inner (b := b) (c := c) q a s
  rw [h]

/-- Code that takes the link down at most and says nothing of the association. -/
abbrev Calms {α : Type} (p : Halow α) : Prop := p.Within KeepsLink Silent

theorem calms_load {α : Type} (g : State → α) : Calms (load g) := Proc.within_load.mpr fun _ => .inl rfl

/-- The calls that write the link status otherwise, or tell morselib of an association. -/
def Call.links : Call → Bool
  | join _ | leave _ | setUp _ _ _ | deinit => true
  | _ => false

/-- The stages that tell morselib of none. -/
def Stage.silent : Stage → Bool
  | disable _ => false
  | call c => !c.links
  | _ => true

/-- **Only a join writes the link status otherwise.** -/
theorem Stage.Sets.keepsLink {stage : Stage} {f : State → State} (h : Stage.Sets b stage f)
    (hs : ∀ args, stage ≠ .call (.join args)) : KeepsLink f := by
  intro s
  cases h with
  | joinLink => exact absurd rfl (hs _)
  | initLink => exact .inr rfl
  | disableLink => exact .inr rfl
  | restLink => exact .inr rfl
  | leaveLink => exact .inr rfl
  | _ => exact .inl rfl

theorem Stage.Asks.silent {stage : Stage} {q : Ask} (h : Stage.Asks b stage q)
    (hs : stage.silent = true) : Silent q := by
  cases h with
  | apDisable => exact absurd hs Bool.false_ne_true
  | staDisable => exact absurd hs Bool.false_ne_true
  | @atInit f h => cases f <;> first | exact fun _ _ => rfl | exact absurd h Bool.false_ne_true
  | @tells c f h =>
    unfold Call.tells at h
    split at h <;> first
      | exact fun _ _ => rfl
      | exact absurd hs Bool.false_ne_true
      | exact absurd h Bool.false_ne_true
      | (cases f <;> first | exact fun _ _ => rfl | exact absurd h Bool.false_ne_true)
  | _ => exact fun _ _ => rfl

/-- **Silent stages** make code that takes the link down at most. -/
theorem Steps.calms {ps : List Stage} {α : Type} {p : Halow α} (h : Steps b ps p)
    (hps : ∀ stage ∈ ps, stage.silent = true) : Calms p := by
  refine h.within (fun _ => .inl rfl) (fun stage hm _ hf => hf.keepsLink ?_)
    fun stage hm _ hq => hq.silent (hps stage hm)
  rintro args rfl
  exact absurd (hps _ hm) Bool.false_ne_true

/-- Bringing an interface up is silent. -/
theorem calms_bringUp {itf : Itf} {country : List UInt8} : Calms (setUpItf b itf true country) := by
  refine (steps_setUpItf (List.Subset.refl _)).calms ?_
  cases itf <;> simp [Itf.stages, Itf.upStages, Stage.silent]

/-- **The smaller calls leave the link alone.** -/
theorem calms_body (h : c.links = false) : Calms (c.body b) := by
  refine (steps_body c).calms fun stage hm => ?_
  cases stage with
  | call d =>
    obtain rfl := eq_of_mem_stages hm
    exact congrArg not h
  | disable itf =>
    cases c <;> first
      | exact absurd h.symm Bool.false_ne_true
      | simp [Call.stages] at hm
  | _ => rfl

/-! ## The calls outside of a join -/

/-- Outside of a join the link is known. -/
def KnownAbove (is : List (Info (State × Bool) Ask Ask.Ans Call)) (v : State × Bool) : Prop :=
  ¬ Joining (doings is) → LinkKnown v

theorem joining_doings (hc : κ.call.isJoin = false) :
    Joining (doings (κ.infos l)) ↔ Joining (doings κ.below) := by
  constructor
  · rintro ⟨i, hi, hj⟩
    obtain rfl | hi := List.mem_cons.mp hi
    · exact absurd (hc.symm.trans hj) Bool.false_ne_true
    · exact ⟨i, hi, hj⟩
  · rintro ⟨i, hi, hj⟩
    exact ⟨i, List.mem_cons_of_mem _ hi, hj⟩

theorem LinkKnown.keeps {f : State → State} (hf : KeepsLink f) (h : LinkKnown v) :
    LinkKnown (Prod.map f id v) := fun hg => (h hg).keeps hf

theorem LinkKnown.of_eq (h : LinkKnown v) (hl : w.1.linkStatus = v.1.linkStatus) (hg : w.2 = v.2) :
    LinkKnown w := fun hw => (h (hg.symm.trans hw)).imp hl.trans hl.trans

theorem LinkKnown.enter {q : Ask} (h : LinkKnown v) :
    LinkKnown (((world b).recording association).enter c q v) := h.of_eq (linkStatus_enter (c := c)) rfl

theorem unmoved_knownAbove {q : Ask} (hc : κ.call.isJoin = false) (hq : Silent q) :
    (linkSpec b).UnmovedIn κ (KnownAbove κ.below) q where
  guard _ _ _ := trivial
  enter _ h hj := (h hj).enter
  leave a v h hj := (h hj).of_eq linkStatus_leave (hq a v.2)
  entry _ _ h _ hj := h fun hb => hj ((joining_doings hc).mpr hb)

theorem steady_knownAbove {is is' : List (Info (State × Bool) Ask Ask.Ans Call)} :
    (linkSpec b).SteadyIn is (KnownAbove is') := fun _ _ _ h hj => (h hj).callback

theorem during_knownAbove (hc : κ.call.isJoin = false)
    (h : (linkSpec b).during (κ.infos l) v w) (hv : KnownAbove κ.below v) : KnownAbove κ.below w :=
  fun hj => h.1 (fun hi => hj ((joining_doings hc).mp hi)) (hv hj)

/-- **Code that takes the link down at most keeps it known.** -/
theorem calms_known {α : Type} {p : Halow α} (hp : Calms p) (hc : κ.call.isJoin = false)
    (hv : KnownAbove κ.below v) :
    (linkSpec b).wp κ l (p.beside Bool) v fun _ _ w => KnownAbove κ.below w :=
  Spec.wp_mono (Spec.wp_within_in (G := fun _ => True)
    ((hp.mono (fun _ hf => hf) fun _ hq => ⟨unmoved_knownAbove hc hq, trivial⟩).beside
      fun _ hf _ hv hj => (hv hj).keeps hf)
    (fun _ => steady_knownAbove) (fun _ _ _ h => during_knownAbove hc h) hv) fun _ _ _ h => h.1

/-- Disabling the station ends the association, and then the link is taken down. -/
theorem disable_known {itf : Itf} (hc : κ.call.isJoin = false) (hv : KnownAbove κ.below v) :
    (linkSpec b).wp κ l ((disable b itf).beside Bool) v fun _ _ w => KnownAbove κ.below w := by
  unfold disable
  split
  · exact calms_known (.bind (Proc.within_request.mpr fun _ _ => rfl) fun _ => trivial) hc hv
  refine Spec.wp_beside_seq (M := fun _ _ _ => True) ?_ fun l' _ w _ => ?_
  · refine Spec.wp_beside_seq (M := fun _ _ _ => True) ?_ fun _ _ _ h => h
    exact Spec.wp_request_in (D := KnownAbove κ.below) steady_knownAbove hv (fun _ _ _ => trivial)
      (fun _ _ hv h => during_knownAbove hc h fun hj => (hv hj).enter)
      (fun _ hv _ hj => hv fun hb => hj ((joining_doings hc).mpr hb)) fun _ _ _ _ _ => trivial
  · exact Spec.wp_store_in (P := fun _ => True) (fun _ _ _ _ => trivial) trivial fun _ _ _ _ => .inl rfl

theorem takeDown_known {itf : Itf} (hc : κ.call.isJoin = false) (hv : KnownAbove κ.below v) :
    (linkSpec b).wp κ l ((takeDown b itf).beside Bool) v fun _ _ w => KnownAbove κ.below w :=
  Spec.wp_beside_seq (disable_known hc hv) fun _ _ _ hw =>
    calms_known ((steps_lower (List.mem_singleton.mpr rfl)).calms (by simp [Stage.silent])) hc hw

theorem setUpItf_known {itf : Itf} {up : Bool} {country : List UInt8} (hc : κ.call.isJoin = false)
    (hv : KnownAbove κ.below v) :
    (linkSpec b).wp κ l ((setUpItf b itf up country).beside Bool) v fun _ _ w => KnownAbove κ.below w := by
  cases up with
  | true => exact calms_known calms_bringUp hc hv
  | false =>
    refine Spec.wp_beside_seq (calms_known (calms_load _) hc hv) fun l' isInit w hw => ?_
    split
    · exact hw
    · exact takeDown_known hc hw

theorem deinitItf_known {itf : Itf} (hc : κ.call.isJoin = false) (hv : KnownAbove κ.below v) :
    (linkSpec b).wp κ l ((deinitItf b itf).beside Bool) v fun _ _ w => KnownAbove κ.below w := by
  refine Spec.wp_beside_seq (calms_known (calms_load _) hc hv) fun l' isUp w hw => ?_
  unfold onlyIf
  split
  · refine Spec.wp_beside_seq (calms_known (calms_load _) hc hw) fun l' country w hw => ?_
    exact Spec.wp_beside_seq (setUpItf_known hc hw) fun _ _ _ hw => hw
  · exact hw

theorem deinit_known (hc : κ.call.isJoin = false) (hv : KnownAbove κ.below v) :
    (linkSpec b).wp κ l ((deinitDriver b).beside Bool) v fun _ _ w => KnownAbove κ.below w := by
  refine Spec.wp_beside_seq (calms_known (calms_load _) hc hv) fun _ _ w hw => ?_
  split
  · exact hw
  refine Spec.wp_beside_seq (calms_known (calms_load _) hc hw) fun _ _ w hw => ?_
  split
  · exact hw
  refine Spec.wp_beside_seq (deinitItf_known hc hw) fun _ _ w hw => ?_
  refine Spec.wp_beside_seq (deinitItf_known hc hw) fun _ _ w hw => ?_
  have hrest : Calms deinitRest :=
    (steps_deinitRest (b := b) (List.mem_singleton.mpr rfl)).calms (by simp [Stage.silent])
  exact Spec.wp_beside_seq (calms_known hrest hc hw) fun _ _ _ hw => hw

/-! ## Within a leave of the station -/

theorem LinkOff.enter {q : Ask} (h : LinkOff s) : LinkOff (enter b c q s) := by
  unfold LinkOff
  rw [linkStatus_enter]
  exact h

theorem LinkOff.leave {q : Ask} {a : q.Ans} (h : LinkOff s) : LinkOff (leave b c q a s) := by
  unfold LinkOff
  rw [linkStatus_leave]
  exact h

theorem LinkOff.known (h : LinkOff v.1) : LinkKnown v := fun _ => h

theorem departing_infos (h : departing (doings κ.below) = true) :
    departing (doings (κ.infos l)) = true := by
  obtain ⟨i, hi, hp⟩ := List.any_eq_true.mp h
  exact List.any_eq_true.mpr ⟨i, List.mem_cons_of_mem _ hi, hp⟩

/-- **Code that takes the link down at most keeps it off** there. -/
theorem off_within {α : Type} {p : Halow α} (hp : p.Within KeepsLink fun _ => True)
    (hd : ∀ l, departing (doings (κ.infos l)) = true) (hv : LinkOff v.1) :
    (linkSpec b).wp κ l (p.beside Bool) v fun _ _ w => LinkOff w.1 := by
  have hq : ∀ q, (linkSpec b).UnmovedIn κ (fun v => LinkOff v.1) q := fun q =>
    ⟨fun _ _ _ => trivial, fun _ h => h.enter (c := κ.call), fun _ _ h => h.leave, fun _ _ h _ _ => h.known⟩
  exact Spec.wp_mono (Spec.wp_within_in (P := fun v => LinkOff v.1) (G := fun _ => True)
    ((hp.mono (fun _ hf => hf) fun q _ => ⟨hq q, trivial⟩).beside fun _ hf _ hv => hv.keeps hf)
    (fun l => steady_linkOff (hd l)) (fun l _ _ h => h.2 (hd l)) hv) fun _ _ _ h => h.1

/-- `mm_halow_wifi_leave` takes the link down first, and nothing takes it up before it returns. -/
theorem wifiLeave_known {itf : Int} (hc : κ.call = .leave itf) (hv : KnownAbove κ.below v) :
    (linkSpec b).wp κ l ((wifiLeave itf).beside Bool) v fun _ _ w => KnownAbove κ.below w := by
  unfold wifiLeave
  split
  · refine calms_known (.bind (Proc.within_request.mpr ?_) fun _ => trivial) (by rw [hc]; rfl) hv
    exact fun _ _ => rfl
  case isFalse hitf =>
    have hd : ∀ l, departing (doings (κ.infos l)) = true := by
      intro l
      refine List.any_eq_true.mpr ⟨_, List.mem_cons_self .., ?_⟩
      change Call.parts κ.call = true
      rw [hc]
      exact bne_iff_ne.mpr hitf
    refine Spec.wp_beside_seq (M := fun _ _ w => LinkOff w.1) ?_ fun _ _ w hw => ?_
    · exact Spec.wp_store_in (P := fun _ => True) (fun _ _ _ _ => trivial) trivial fun _ _ => .inl rfl
    · refine Spec.wp_mono (off_within (.bind (Proc.within_request.mpr trivial) fun _ => trivial) hd hw) ?_
      exact fun _ _ _ hw _ => hw.known

/-! ## A join -/

/-- Before a join has its answer, nothing is shown. -/
theorem join_anything {α : Type} {p : Halow α} (hc : κ.call.isJoin = true) :
    (linkSpec b).wp κ l (p.beside Bool) v fun _ _ _ => True := by
  have hj : ∀ l, Joining (doings (κ.infos l)) := fun l => ⟨_, List.mem_cons_self .., hc⟩
  have hq : ∀ q, (linkSpec b).UnmovedIn κ (fun _ => True) q := fun q =>
    ⟨fun _ _ _ => trivial, fun _ _ => trivial, fun _ _ _ => trivial, fun l _ _ _ h => absurd (hj l) h⟩
  exact Spec.wp_mono (Spec.wp_within_in (P := fun _ => True) (G := fun _ => True)
    (Proc.within_of_forall (fun _ _ _ => trivial) fun q => ⟨hq q, trivial⟩)
    (fun _ _ _ _ _ => trivial) (fun _ _ _ _ _ => trivial) trivial) fun _ _ _ _ => trivial

/-- **A join that returns leaves an association, or a link that has failed.** -/
theorem joinWith_known {args : StaArgs} (hc : κ.call.isJoin = true) :
    (linkSpec b).wp κ l ((joinWith args).beside Bool) v fun _ _ w => LinkKnown w := by
  refine Spec.wp_beside_seq (join_anything hc) fun _ _ _ _ => ?_
  refine Spec.wp_beside_seq (join_anything hc) fun _ _ _ _ => ?_
  refine Spec.wp_beside_seq (join_anything hc) fun _ active _ _ => ?_
  refine Spec.wp_beside_seq (join_anything hc) fun l _ _ _ => ?_
  have hj : ∀ l, Joining (doings (κ.infos l)) := fun l => ⟨_, List.mem_cons_self .., hc⟩
  refine Spec.wp_beside_seq (M := fun _ (st : Status) w => st = .success → w.2 = true) ?_
    fun l (st : Status) w hw => ?_
  · exact Spec.wp_request_in (P := fun _ => True) (D := fun _ => True) (fun _ _ _ _ => trivial) trivial
      (fun _ _ _ => trivial) (fun _ _ _ _ => trivial) (fun _ _ _ h => absurd (hj _) h)
      fun _ (st : Status) _ _ _ hst => beq_iff_eq.mpr hst
  · split
    case isTrue =>
      refine Spec.wp_beside_seq (M := fun _ _ w => LinkOff w.1) ?_ fun _ _ _ hw => hw.known
      exact Spec.wp_store_in (P := fun _ => True) (fun _ _ _ _ => trivial) trivial fun _ _ => .inr rfl
    case isFalse hst => exact fun hg => absurd (hg.symm.trans (hw (Decidable.not_not.mp hst))) nofun

/-! ## Every run -/

/-- Every call but a join takes the link down at most. -/
theorem keepsLink_body (h : c.isJoin = false) : (c.body b).Within KeepsLink fun _ => True := by
  refine (steps_body c).within (fun _ => .inl rfl) (fun stage hm f hf => hf.keepsLink ?_)
    fun _ _ _ _ => trivial
  rintro args rfl
  rw [← eq_of_mem_stages hm] at h
  exact nomatch h

/-- **Every call keeps the link known** outside of a join. -/
theorem body_known (hc : κ.call = c) (hv : KnownAbove κ.below v) :
    (linkSpec b).wp κ l ((c.body b).beside Bool) v fun _ _ w => KnownAbove κ.below w := by
  cases c with
  | join args =>
    change (linkSpec b).wp κ l ((wifiJoin b args).beside Bool) v _
    unfold wifiJoin
    split
    · exact hv
    · exact Spec.wp_mono (joinWith_known (by rw [hc]; rfl)) fun _ _ _ hw _ => hw
  | leave itf => exact wifiLeave_known hc hv
  | setUp itf up country =>
    change (linkSpec b).wp κ l ((wifiSetUp b itf up country).beside Bool) v _
    unfold wifiSetUp
    split
    · exact hv
    · exact setUpItf_known (by rw [hc]; rfl) hv
  | deinit => exact deinit_known (by rw [hc]; rfl) hv
  | _ => exact calms_known (calms_body rfl) (by rw [hc]; rfl) hv

theorem call_linkKnown {is : List (Info (State × Bool) Ask Ask.Ans Call)} (hv : KnownAbove is v)
    (hok : (linkSpec b).ok is v (.call c)) :
    (linkSpec b).Meets is c v fun w => KnownAbove is w ∧
      (departing (doings is) = true → LinkOff v.1 → LinkOff w.1) := by
  have hknown := body_known (b := b) (κ := ⟨c, ((world b).recording association).atDepth (is.length + 1) v, is⟩)
    (l := .empty) rfl (v := ((world b).recording association).atDepth (is.length + 1) v) hv
  by_cases hd : departing (doings is) = true ∧ LinkOff v.1
  · have hinfos : ∀ l, departing (doings (Around.infos ⟨c, ((world b).recording association).atDepth
        (is.length + 1) v, is⟩ l)) = true := fun l => departing_infos hd.1
    have hjoin : c.isJoin = false := by
      cases c with
      | join args =>
        have hok : (!departing (doings is)) = true := hok
        rw [hd.1] at hok
        exact nomatch hok
      | _ => rfl
    have hoff := off_within (b := b) (l := .empty)
      (v := ((world b).recording association).atDepth (is.length + 1) v) (keepsLink_body (b := b) hjoin)
      hinfos hd.2
    refine Spec.wp_mono (Spec.wp_and hknown hoff) fun l _ w hw u hu => ?_
    have hu₁ : KnownAbove is u := steady_knownAbove.calm hu hw.1
    have hu₂ : LinkOff u.1 := (steady_linkOff (hinfos l)).calm hu hw.2
    exact ⟨trivial, hu₁, fun _ _ => hu₂⟩
  · refine Spec.wp_mono hknown fun _ _ w hw u hu => ?_
    have hu : KnownAbove is u := steady_knownAbove.calm hu hw
    exact ⟨trivial, hu, fun h h' => absurd ⟨h, h'⟩ hd⟩

/-- **Every call does**, wherever it is made. -/
theorem linkSpec_sound (b : Build) : (linkSpec b).Sound where
  idle_cb _ _ h _ := h.callback
  during_refl _ _ := ⟨fun _ h => h, fun _ h => h⟩
  during_trans _ _ _ _ h h' := ⟨fun hj hv => h'.1 hj (h.1 hj hv), fun hd hv => h'.2 hd (h.2 hd hv)⟩
  during_cb is s e hok := by
    refine ⟨fun _ h => h.callback, fun hd h => LinkOff.callback h fun st he => ?_⟩
    subst he
    have hok : (st == .disabled || !departing (doings is)) = true := hok
    rw [hd, Bool.not_true, Bool.or_false] at hok
    exact beq_iff_eq.mp hok
  first c v hv hok := Spec.wp_mono (call_linkKnown (fun _ => hv) hok) fun _ _ _ h u hu =>
    ⟨trivial, (h u hu).2.1 fun ⟨_, hi, _⟩ => absurd hi List.not_mem_nil⟩
  nested c i is v hv hok := Spec.wp_mono (call_linkKnown hv hok) fun _ _ _ h u hu =>
    ⟨trivial, fun hj _ => (h u hu).2.1 hj, (h u hu).2.2⟩

/-- **With no association and no join in flight the link is off**, where a call may be made. -/
theorem linkKnown_run {s : State} {tr : List Happening} {x : Site} (hs : LinkOff s)
    (hr : Run (fun x e y => (world b).Step x e y ∧ parted x.infos e = true) ⟨s, []⟩ tr x)
    (hcall : (world b).mayCall x.stack = true) (hj : ¬ Joining x.infos)
    (hg : association.after false tr = false) : LinkOff x.st := by
  obtain ⟨y, hy, hb⟩ := Run.recording association false (fun is _ e => parted is e = true) hr
  have hknown : LinkKnown y.st := by
    by_cases hstack : y.stack = []
    · exact (linkSpec_sound b).idle (s := (s, false)) (fun _ => hs) hy hstack
    · refine (linkSpec_sound b).entry (s := (s, false)) (fun _ => hs) hy hstack
        ((mayCall_beside hb.stack).trans hcall) ?_
      rw [doings, hb.infos]
      exact hj
  have h := hb.st ▸ hknown
  exact h hg

/-! ## What a call asks for first -/

/-- The call takes its own steps, and memory is granted. -/
def own : Happening → Prop
  | .act => True
  | .ask q => q = .osalMalloc
  | .answer .osalMalloc (block : Bool) => block = true
  | _ => False

/-- **Left to itself and granted memory, the innermost call asks for `q`.** -/
def Asks (b : Build) (x : Site) (q : Ask) : Prop :=
  ∃ tr y z, Run (fun x e y => (world b).Step x e y ∧ own e) x tr y ∧ (world b).Step y (.ask q) z

/-- The same by evaluation. -/
def firstAsk {α : Type} : Halow α → State → Option Ask
  | .ret _, _ => none
  | .act f k, s => firstAsk (k s) (f s)
  | .ask .osalMalloc k, s => firstAsk (k true) s
  | .ask q _, _ => some q

variable {x y : Site} {q : Ask}

theorem Asks.cons {e : Happening} (hs : (world b).Step x e y) (he : own e) (h : Asks b y q) : Asks b x q := by
  obtain ⟨tr, z, w, hr, hask⟩ := h
  exact ⟨e :: tr, z, w, hr.cons ⟨hs, he⟩, hask⟩

/-- It asks at once, or after a step of its own. -/
theorem Asks.cases (h : Asks b x q) : (∃ z, (world b).Step x (.ask q) z) ∨
    ∃ e y, (world b).Step x e y ∧ own e ∧ Asks b y q := by
  obtain ⟨tr, y, z, hr, hask⟩ := h
  cases tr with
  | nil =>
    obtain rfl := hr.of_nil
    exact .inl ⟨z, hask⟩
  | cons e tr =>
    obtain ⟨u, ⟨hs, he⟩, hu⟩ := hr.uncons
    exact .inr ⟨e, u, hs, he, tr, y, z, hu, hask⟩

/-- **What a call asks for first is what evaluation gives.** -/
theorem asks_iff {p : Halow Ret} {i : Doing} {as : List (Activation State Ask Ask.Ans Call Ret)}
    (hp : p.Within (fun f => ∀ s, (f s).heap = s.heap) fun _ => True) (hheap : s.heap = true)
    (hq : q ≠ .osalMalloc) : Asks b ⟨s, ⟨i, .run p⟩ :: as⟩ q ↔ firstAsk p s = some q := by
  induction p generalizing s i with
  | ret r =>
    constructor
    · intro h
      obtain ⟨z, h⟩ | ⟨e, y, h, he, -⟩ := h.cases
      · exact nomatch h
      · cases h <;> exact he.elim
    · exact fun h => nomatch h
  | act f k ih =>
    have ih := @ih s (f s) i (hp.2 s) ((hp.1 s).trans hheap)
    constructor
    · intro h
      obtain ⟨z, h⟩ | ⟨e, y, h, he, hy⟩ := h.cases
      · exact nomatch h
      · cases h with
        | act => exact ih.mp hy
        | call => exact he.elim
        | cb => exact he.elim
    · exact fun h => .cons .act trivial (ih.mpr h)
  | ask q' k ih =>
    by_cases hq' : q' = .osalMalloc
    · subst hq'
      have ih := @ih (true : Bool) s { i with log := (i.log.ask .osalMalloc).hear .osalMalloc (true : Bool) }
        (hp.2 _) hheap
      constructor
      · intro h
        obtain ⟨z, h⟩ | ⟨e, y, h, he, hy⟩ := h.cases
        · cases h
          exact absurd rfl hq
        cases h with
        | call => exact he.elim
        | cb => exact he.elim
        | ask =>
          obtain ⟨z, h⟩ | ⟨e, y, h, he, hy⟩ := hy.cases
          · exact nomatch h
          cases h with
          | call => exact he.elim
          | cb => exact he.elim
          | answer ha =>
            obtain rfl := he
            exact ih.mp hy
      · intro h
        have ha : (world b).answers .osalMalloc (true : Bool) ((world b).enter i.call .osalMalloc s) = true :=
          hheap
        exact .cons .ask rfl (.cons (.answer ha) rfl (ih.mpr h))
    · have hfirst : firstAsk (.ask q' k : Halow Ret) s = some q' := by
        cases q' <;> first | exact absurd rfl hq' | rfl
      rw [hfirst]
      constructor
      · intro h
        obtain ⟨z, h⟩ | ⟨e, y, h, he, hy⟩ := h.cases
        · cases h
          rfl
        · cases h with
          | call => exact he.elim
          | cb => exact he.elim
          | ask => exact absurd he hq'
      · intro h
        obtain rfl := Option.some.inj h
        exact ⟨[], _, _, .nil, .ask⟩

/-- `mm_halow_wifi_scan_cached` leaves the pool alone. -/
theorem heap_scanCached {max : Nat} :
    (wifiScanCached b max).Within (fun f => ∀ s, (f s).heap = s.heap) fun _ => True := by
  refine Steps.one (steps_scanCached (List.mem_singleton.mpr rfl)) (fun f hf s => ?_) fun _ _ => trivial
  cases hf <;> rfl

/-- **What a scan asks for**: a sweep, or the end of the one that is active, with the link down. -/
theorem firstAsk_scanCached {max : Nat} : firstAsk (wifiScanCached b max) s =
    if s.linkStatus = .down then some (if s.scanActive then .schedWait scanMs else .mmwlan .scanRequest)
    else none := by
  have hload : ∀ {α β : Type} (g : State → α) (k : α → Halow β) (s : State),
      firstAsk (load g >>= k) s = firstAsk (k (g s)) s := fun _ _ _ => rfl
  have hstore : ∀ {β : Type} (f : State → State) (k : Unit → Halow β) (s : State),
      firstAsk (store f >>= k) s = firstAsk (k ()) (f s) := fun _ _ _ => rfl
  have hmalloc : ∀ {β : Type} (k : Bool → Halow β) (s : State),
      firstAsk (osalMalloc >>= k) s = firstAsk (k true) s := fun _ _ => rfl
  have hsweep : ∀ t : State, firstAsk (sweep max) t =
      some (if t.scanActive then .schedWait scanMs else .mmwlan .scanRequest) := by
    intro t
    change firstAsk (Proc.bind (if (!t.scanActive) = true then _ else _ : Halow Ret) _) t = _
    cases t.scanActive with
    | true => rfl
    | false => rfl
  unfold wifiScanCached
  rw [hload]
  by_cases hdown : s.linkStatus = .down
  · rw [if_neg (not_not.mpr hdown), if_pos hdown, hload]
    cases hcache : s.scanCache with
    | true => exact hsweep s
    | false => exact hsweep _
  · rw [if_pos hdown, if_neg hdown]
    rfl

/-- A scan that is made with the link down asks for a sweep, or for the end of the one that is active. -/
theorem scan_asks {max : Nat} (hs : (world b).Step x (.call (.scanCached max)) y) (hheap : x.st.heap = true) :
    Asks b y (.mmwlan .scanRequest) ↔ x.st.linkStatus = .down ∧ x.st.scanActive = false := by
  cases hs with
  | @call s as c hcall =>
    have hq : Ask.mmwlan .scanRequest ≠ .osalMalloc := nofun
    have hiff : Asks b ⟨atDepth (as.length + 1) s, ⟨⟨.scanCached max, atDepth (as.length + 1) s, .empty⟩,
        .run (wifiScanCached b max)⟩ :: as⟩ (.mmwlan .scanRequest) ↔
        firstAsk (wifiScanCached b max) (atDepth (as.length + 1) s) = some (.mmwlan .scanRequest) :=
      asks_iff heap_scanCached hheap hq
    refine hiff.trans ?_
    rw [firstAsk_scanCached]
    change (if s.linkStatus = .down then some (if s.scanActive then _ else _) else none) = _ ↔ _
    cases hactive : s.scanActive <;> simp

/-- **Scanning is available to an idle radio unless the link has failed**: in every run in which
nothing begins an association within a leave of the station, whenever a scan is called with no
association up or on its way and no join in progress, and there is memory, it requests a sweep unless
one is active, exactly where `link_status` is not `MM_HALOW_LINK_FAIL`. -/
theorem scan_available_iff (b : Build) (lwip : Lwip) (tr : List Happening) (x y : Site) (max : Nat)
    (hr : Run (fun x e y => (world b).Step x e y ∧ parted x.infos e = true) (start b lwip) tr x)
    (hscan : (world b).Step x (.call (.scanCached max)) y) (hjoin : ¬ Joining x.infos)
    (hassoc : association.after false tr = false) (hheap : x.st.heap = true) :
    (x.st.scanActive = false → Asks b y (.mmwlan .scanRequest)) ↔
      (x.st.linkStatus = .fail → x.st.scanActive = true) := by
  have hcall : (world b).mayCall x.stack = true := by
    cases hscan with
    | call h => exact h
  have hoff : LinkOff x.st := linkKnown_run (.inl rfl) hr hcall hjoin hassoc
  rw [scan_asks hscan hheap]
  obtain hdown | hfail := hoff
  · exact ⟨fun _ h => absurd (hdown.symm.trans h) nofun, fun _ h => ⟨hdown, h⟩⟩
  · constructor
    · intro h _
      cases hactive : x.st.scanActive with
      | true => rfl
      | false => exact absurd ((h hactive).1.symm.trans hfail) nofun
    · intro h hactive
      exact absurd ((h hfail).symm.trans hactive) nofun

/-! ## Runs of it -/

/-- The station joins, loses the network, and scans. -/
theorem scan_available_iff_lost : ∃ tr x y,
    Run (world (.small false)).Step (start (.small false) noNetifs) tr x ∧
    (world (.small false)).Step x (.call (.scanCached 8)) y ∧
    Asks (.small false) y (.mmwlan .scanRequest) := by
  obtain ⟨tr, x, hr, hx⟩ := World.run_of_play_any (world (.small false)) (fun is _ e => parted is e)
    (start (.small false) noNetifs)
    (stationUp ++ .call (.join network) :: granted [.mmwlan (.staEnable network)] ++
      [.cb (.sta .connected), .cb (.sta .disabled)])
    (fun r => association.after false r.1 == false && r.2.stack.isEmpty && r.2.st.heap &&
      !r.2.st.scanActive && decide (r.2.st.linkStatus = .down)) rfl
  simp only [Bool.and_eq_true, beq_iff_eq, Bool.not_eq_true', decide_eq_true_eq] at hx
  obtain ⟨⟨⟨⟨hassoc, hstack⟩, hheap⟩, hactive⟩, hdown⟩ := hx
  obtain ⟨s, stack⟩ := x
  obtain rfl : stack = [] := List.isEmpty_iff.mp hstack
  refine ⟨tr, _, _, hr.mono fun _ _ _ h => h.1, .call rfl, ?_⟩
  refine (scan_available_iff (.small false) noNetifs tr ⟨s, []⟩ _ 8 hr (.call rfl)
    (fun ⟨_, hi, _⟩ => absurd hi List.not_mem_nil) hassoc hheap).mpr ?_ hactive
  exact fun hfail => absurd (hdown.symm.trans hfail) nofun

/-- **A refused join blocks scanning**: the station is up, morselib refuses to enable it for a network,
and with the transceiver booted, nothing in progress and no association no sweep is requested. -/
theorem refused_join_blocks : ∃ tr x y, Run (world (.small false)).Step (start (.small false) noNetifs) tr x ∧
    x.stack = [] ∧ x.st.booted = true ∧ x.st.heap = true ∧ x.st.scanActive = false ∧
      association.after false tr = false ∧ (world (.small false)).Step x (.call (.scanCached 8)) y ∧
        ¬ Asks (.small false) y (.mmwlan .scanRequest) := by
  obtain ⟨tr, x, hr, hx⟩ := World.run_of_play_any (world (.small false)) (fun _ _ _ => true)
    (start (.small false) noNetifs)
    (stationUp ++ [.call (.join network), .answer (.mmwlan (.staEnable network)) Status.error])
    (fun r => association.after false r.1 == false && r.2.stack.isEmpty && r.2.st.booted && r.2.st.heap &&
      !r.2.st.scanActive && decide (r.2.st.linkStatus = .fail)) rfl
  simp only [Bool.and_eq_true, beq_iff_eq, Bool.not_eq_true', decide_eq_true_eq] at hx
  obtain ⟨⟨⟨⟨⟨hassoc, hstack⟩, hbooted⟩, hheap⟩, hactive⟩, hfail⟩ := hx
  obtain ⟨s, stack⟩ := x
  obtain rfl : stack = [] := List.isEmpty_iff.mp hstack
  refine ⟨tr, _, _, hr.mono fun _ _ _ h => h.1, rfl, hbooted, hheap, hactive, hassoc, .call rfl, ?_⟩
  intro h
  have hdown := (scan_asks (x := ⟨s, []⟩) (.call rfl) hheap).mp h
  exact absurd (hdown.1.symm.trans hfail) nofun

end MmHalow.Ctrl
