import MmHalow.Ctrl.Linked

/-!
# The interfaces are independent (`mm_halow_wifi_set_up`, `mm_halow_wifi_leave`)

The station and the access point go through one function and share the transceiver. Each run below
starts from a state that calls made one at a time lead to.

* `independent_runs`: bringing the access point up and down and leaving it keeps the station as it is
  and asks neither to disable it nor to shut the transceiver down, if the build has AP support or the
  access point is never taken down; taking the station down while the access point is up asks neither
  to disable that nor to shut down.
* `station_disabled`: without AP support, taking the access point down disables the station.
-/

namespace MmHalow.Ctrl

open MmHalow.Lib

/-- The call brings the access point up or down or leaves it. -/
def Call.onAp : Call → Bool
  | setUp itf _ _ => itf == 1
  | leave itf => itf == 1
  | _ => false

/-- The call takes an interface down: the station or the access point. -/
def Call.isApDown : Call → Bool
  | setUp itf up _ => itf == 1 && !up
  | _ => false

def Call.isStaDown : Call → Bool
  | setUp itf up _ => itf == 0 && !up
  | _ => false

/-- The callbacks that do not concern the station's link. -/
def Callback.offLink : Callback → Bool
  | sta _ | link _ | fatal => false
  | _ => true

/-- Calls are made for the access point, and morselib reports nothing of the station's link. -/
def ForAp : Happening → Prop
  | .call c => c.onAp = true
  | .cb e => e.offLink = true
  | _ => True

/-- **The access point is taken down only in a build that has one.** -/
def KeepsStation (b : Build) : Happening → Prop
  | .call c => c.isApDown = true → b.enableAp = true
  | _ => True

/-- The station is taken down. -/
def StationDown : Happening → Prop
  | .call c => c.isStaDown = true
  | _ => True

/-- What the calls for the access point leave alone. -/
structure StationAs (status : LinkStatus) (link : Bool) (s : State) : Prop where
  initted : s.initted = true
  up : s.itfState .sta = true
  status : s.linkStatus = status
  link : s.lwip.netifIsLinkUp .sta = link

/-- The access point is up. -/
def ApIsUp (s : State) : Prop := s.itfState .ap = true

/-- The specification: `P` holds, and nothing `bad` is asked. -/
def besideSpec (b : Build) (ok : Happening → Prop) (bad : Ask → Prop) (P : State → Prop) :
    Spec (oneAtATime b) :=
  .oneAtATime (world b) (fun _ _ e => ok e) (fun _ q s => P s ∧ ¬ bad q) (fun _ _ _ => True) P

variable {b : Build} {c : Call} {s : State} {status : LinkStatus} {link : Bool}

/-! ## Taking an interface down beside another -/

/-- Code that keeps `P`, where `P` says that an interface stays up. -/
theorem takeDown_beside {itf : Itf} {ok : Happening → Prop} {bad : Ask → Prop} {P : State → Prop}
    (hP : (besideSpec b ok bad P).Steady P)
    (hdisable : (disable b itf).Within (fun f => ∀ s, P s → P (f s)) ((besideSpec b ok bad P).Unmoved c P))
    (hlink : ∀ s, P s → P { s with lwip := (b.lwip.setLinkDown itf s.lwip).2 })
    (hdeinit : ∀ s, P s → P { s with lwip := b.lwip.tcpipDeinit b.glue itf s.lwip })
    (hclear : ∀ s, P s → P { s with itfState := Function.update s.itfState itf false })
    (hup : ∀ s, P s → s.noItf = false) :
    (besideSpec b ok bad P).Triple c P (takeDown b itf) fun _ => P := by
  refine .seq (.ofWithin hdisable hP hP.patient) fun _ => ?_
  refine .seq (M := fun _ => P) (.load hP fun _ h => h) fun _ => ?_
  refine .seq (M := fun _ => P) (.ite (fun _ => ?_) fun _ => .pure fun _ h => h) fun _ => ?_
  · refine .seq (M := fun _ => P) (.store hP hlink) fun _ => ?_
    exact .seq (M := fun _ => P) (.store hP hdeinit) fun _ => .store hP hclear
  · refine .seq (M := fun last s => P s ∧ last = false) (.load hP fun s h => ⟨h, hup s h⟩) fun last =>
      .of_and fun hlast => ?_
    refine .seq (M := fun _ => P) (.ite (fun h => absurd (hlast.symm.trans h) Bool.false_ne_true)
      fun _ => .pure fun _ h => h) fun _ => .pure fun _ h => h

/-! ## Beside the station -/

/-- What must not be asked while the station is up: to disable it, to shut the transceiver down, or to add
it to lwIP's list again. -/
def DisablesStation (q : Ask) : Prop :=
  q = .mmwlan .staDisable ∨ q = .mmwlan .shutdown ∨ q = .netifAdd .sta

/-- The specification of calls for the access point. -/
abbrev apSpec (b : Build) (status : LinkStatus) (link : Bool) : Spec (oneAtATime b) :=
  besideSpec b (fun e => ForAp e ∧ KeepsStation b e) DisablesStation (StationAs status link)

theorem steady_stationAs : (apSpec b status link).Steady (StationAs status link) := by
  rintro is s e ⟨hok, -⟩ hs
  cases e with
  | sta _ => exact nomatch (hok : false = true)
  | link _ => exact nomatch (hok : false = true)
  | fatal => exact nomatch (hok : false = true)
  | scanRx r =>
    change StationAs status link (scanRxCb b r s)
    unfold scanRxCb
    split
    · exact ⟨hs.initted, hs.up, hs.status, hs.link⟩
    · exact hs
  | rx _ => exact hs
  | scanComplete => exact ⟨hs.initted, hs.up, hs.status, hs.link⟩
  | apSta _ _ => exact ⟨hs.initted, hs.up, hs.status, hs.link⟩
  | spawn => exact ⟨hs.initted, hs.up, hs.status, hs.link⟩
  | arm => exact ⟨hs.initted, hs.up, hs.status, hs.link⟩

/-- A step of code that changes none of the station's pieces. -/
theorem StationAs.of_eq {t : State} (h : StationAs status link s) (hi : t.initted = s.initted)
    (hu : t.itfState .sta = s.itfState .sta) (hs : t.linkStatus = s.linkStatus)
    (hl : t.lwip.linkUp (.halow .sta) = s.lwip.linkUp (.halow .sta)) : StationAs status link t :=
  ⟨hi.trans h.initted, hu.trans h.up, hs.trans h.status, hl.trans h.link⟩

theorem sta_ne_ap : Netif.halow .sta ≠ .halow .ap := nofun

theorem StationAs.enter {q : Ask} (h : StationAs status link s) (hq : ¬ DisablesStation q) :
    StationAs status link (enter b c q s) := by
  by_cases hadd : ∃ itf, q = .netifAdd itf
  · obtain ⟨itf, rfl⟩ := hadd
    cases itf with
    | sta => exact absurd (.inr (.inr rfl)) hq
    | ap =>
      exact h.of_eq rfl rfl rfl ((Function.update_of_ne sta_ne_ap false _).trans
        (b.documented.begin_linkUp .ap _ s.lwip _ sta_ne_ap))
  · obtain ⟨m, hm⟩ := enter_eq (b := b) (c := c) (fun itf h => hadd ⟨itf, h⟩) s
    rw [hm]
    exact h.of_eq rfl rfl rfl rfl

theorem StationAs.leave {q : Ask} (a : q.Ans) (h : StationAs status link s) :
    StationAs status link (leave b c q a s) := by
  by_cases hadd : ∃ itf, q = .netifAdd itf
  · obtain ⟨itf, rfl⟩ := hadd
    exact h.of_eq rfl rfl rfl (congrFun (b.documented.end_linkUp itf s.lwip) _)
  · obtain ⟨m, hm⟩ := leave_eq (b := b) (c := c) (fun itf h => hadd ⟨itf, h⟩) a s
    rw [hm]
    exact h.of_eq rfl rfl rfl rfl

theorem unmoved_stationAs {q : Ask} (hq : ¬ DisablesStation q) :
    (apSpec b status link).Unmoved c (StationAs status link) q :=
  ⟨fun _ _ h => ⟨h, hq⟩, fun _ h => h.enter (c := c) hq,
    fun a _ h => h.leave (c := c) a, fun _ _ _ h => nomatch h⟩

/-- Code of which every step leaves the station alone. -/
abbrev LeavesStation (b : Build) (c : Call) (status : LinkStatus) (link : Bool) {α : Type}
    (p : Halow α) : Prop :=
  p.Within (fun f => ∀ s, StationAs status link s → StationAs status link (f s))
    ((apSpec b status link).Unmoved c (StationAs status link))

theorem leaves_load {α : Type} (g : State → α) : LeavesStation b c status link (load g) :=
  Proc.within_load.mpr fun _ h => h

theorem leaves_mmwlan {f : Mmwlan} (h : ¬ DisablesStation (.mmwlan f)) :
    LeavesStation b c status link (mmwlan f) := Proc.within_request.mpr (unmoved_stationAs h)

/-- The stages of bringing the access point up in an initialised driver. -/
def Stage.bringsAp : Stage → Bool
  | country | boot | ap | raise .ap => true
  | _ => false

theorem Stage.Sets.stationAs {stage : Stage} {f : State → State} (h : Stage.Sets b stage f)
    (hs : stage.bringsAp = true) (s : State) (hst : StationAs status link s) :
    StationAs status link (f s) := by
  cases h with
  | @afterAdd itf =>
    cases itf with
    | sta => exact absurd hs Bool.false_ne_true
    | ap => exact hst.of_eq rfl rfl rfl (congrFun b.documented.afterAdd.2.1 _)
  | @raised itf =>
    cases itf with
    | sta => exact absurd hs Bool.false_ne_true
    | ap => exact hst.of_eq rfl (update_ap s.itfState true) rfl rfl
  | @linkUp itf =>
    cases itf with
    | sta => exact absurd hs Bool.false_ne_true
    | ap => exact hst.of_eq rfl rfl rfl (b.documented.setLinkUp.of_ne sta_ne_ap)
  | _ => first
    | exact hst.of_eq rfl rfl rfl rfl
    | exact absurd hs Bool.false_ne_true

theorem Stage.Asks.besideStation {stage : Stage} {q : Ask} (h : Stage.Asks b stage q)
    (hs : stage.bringsAp = true) : ¬ DisablesStation q := by
  cases h with
  | @netifAdd itf =>
    cases itf with
    | sta => exact absurd hs Bool.false_ne_true
    | ap => simp [DisablesStation]
  | _ => first
    | exact absurd hs Bool.false_ne_true
    | simp [DisablesStation]

/-- **Bringing the access point up leaves the station alone.** -/
theorem Steps.leavesStation {ps : List Stage} {α : Type} {p : Halow α} (h : Steps b ps p)
    (hps : ∀ stage ∈ ps, stage.bringsAp = true) : LeavesStation b c status link p :=
  h.within (fun _ hs => hs) (fun stage hm _ hf => hf.stationAs (hps stage hm))
    fun stage hm _ hq => unmoved_stationAs (hq.besideStation (hps stage hm))

theorem leaves_setCountry {country : List UInt8} :
    LeavesStation b c status link (setCountry b country) :=
  (steps_setCountry (List.mem_singleton.mpr rfl)).leavesStation (by simp [Stage.bringsAp])

theorem leaves_bringUp : LeavesStation b c status link (bringUp b .ap) :=
  (steps_bringUp (List.Subset.refl _)).leavesStation (by simp [Itf.upStages, Stage.bringsAp])

theorem LeavesStation.triple {α : Type} {p : Halow α} (h : LeavesStation b c status link p) :
    (apSpec b status link).Triple c (StationAs status link) p fun _ => StationAs status link :=
  .ofWithin h steady_stationAs steady_stationAs.patient

/-- An initialised driver is not initialised again. -/
theorem sta_initted {α : Type} {p : Bool → Halow α} {R : α → State → Prop}
    (h : (apSpec b status link).Triple c (StationAs status link) (p true) R) :
    (apSpec b status link).Triple c (StationAs status link) (load (·.initted) >>= p) R :=
  .seq (M := fun i s => StationAs status link s ∧ i = true) (.load steady_stationAs fun _ hs =>
    ⟨hs, hs.initted⟩) fun _ => .of_and fun hi => hi ▸ h

/-- **Every call for the access point leaves the station alone.** -/
theorem beside_station (hc : c.onAp = true) (hdown : c.isApDown = true → b.enableAp = true) :
    (apSpec b status link).Triple c (StationAs status link) (c.body b) fun _ => StationAs status link := by
  cases c with
  | leave itf =>
    have hitf : itf = 1 := beq_iff_eq.mp hc
    subst hitf
    exact LeavesStation.triple (.bind (leaves_mmwlan (by simp [DisablesStation])) fun _ => trivial)
  | setUp itf up country =>
    have hitf : itf = 1 := beq_iff_eq.mp hc
    subst hitf
    cases up with
    | true =>
      have hload : LeavesStation b (.setUp 1 true country) status link (load (·.itfState .ap)) := leaves_load _
      refine .seq hload.triple fun _ => .ite (fun _ => .pure fun _ h => h) fun _ => ?_
      refine .seq (M := fun _ => StationAs status link) (sta_initted (.pure fun _ h => h)) fun _ => ?_
      refine .ite (fun _ => .pure fun _ h => h) fun _ => .seq leaves_setCountry.triple fun _ => ?_
      exact .ite (fun _ => .pure fun _ h => h) fun _ => leaves_bringUp.triple
    | false =>
      have hap : b.enableAp = true := hdown rfl
      refine sta_initted (takeDown_beside steady_stationAs ?_ ?_ ?_ ?_ ?_)
      · rw [disable, if_pos ⟨hap, rfl⟩]
        exact .bind (leaves_mmwlan (by simp [DisablesStation])) fun _ => trivial
      · exact fun s h => h.of_eq rfl rfl rfl (b.documented.setLinkDown.of_ne sta_ne_ap)
      · exact fun s h => h.of_eq rfl rfl rfl (b.documented.tcpipDeinit_linkUp sta_ne_ap)
      · exact fun s h => h.of_eq rfl (update_ap s.itfState false) rfl rfl
      · exact fun s h => by simp [State.noItf, h.up]
  | _ => exact nomatch hc

theorem apSpec_sound (b : Build) (status : LinkStatus) (link : Bool) : (apSpec b status link).Sound :=
  Spec.oneAtATime_sound (fun s e h hok => steady_stationAs [] s e hok h) fun _ _ hs hok =>
    (beside_station hok.1 hok.2).meets (P := StationAs status link) (hs.of_eq rfl rfl rfl rfl)
      (fun _ => steady_stationAs) fun _ _ _ ht => ⟨trivial, ht.of_eq rfl rfl rfl rfl⟩

/-! ## Beside the access point -/

/-- What must not be asked while the access point is up. -/
def DisablesAp (q : Ask) : Prop := q = .mmwlan .apDisable ∨ q = .mmwlan .shutdown

/-- The specification of calls that take the station down. -/
abbrev staSpec (b : Build) : Spec (oneAtATime b) := besideSpec b StationDown DisablesAp ApIsUp

theorem steady_apIsUp : (staSpec b).Steady ApIsUp := fun _ _ _ _ hs =>
  Still.callback (P := ApIsUp) (fun _ => Iff.rfl) hs

theorem unmoved_apIsUp {q : Ask} (hbad : ¬ DisablesAp q) : (staSpec b).Unmoved c ApIsUp q :=
  ⟨fun _ _ h => ⟨h, hbad⟩, fun _ hs => Inner.enter (c := c) (P := ApIsUp) (fun _ _ _ h => h) q hs,
    fun a _ hs => Inner.leave (c := c) (P := ApIsUp) (fun _ _ _ h => h) q a hs, fun _ _ _ h => nomatch h⟩

/-- **Taking the station down leaves the access point alone.** -/
theorem beside_ap (hc : c.isStaDown = true) :
    (staSpec b).Triple c ApIsUp (c.body b) fun _ => ApIsUp := by
  cases c with
  | setUp itf up country =>
    obtain ⟨hitf, hup⟩ := Bool.and_eq_true_iff.mp (hc : (itf == 0 && !up) = true)
    obtain rfl := beq_iff_eq.mp hitf
    obtain rfl : up = false := by simpa using hup
    refine .seq (M := fun _ => ApIsUp) (.load steady_apIsUp fun _ h => h) fun _ =>
      .ite (fun _ => .pure fun _ h => h) fun _ => ?_
    refine takeDown_beside steady_apIsUp ?_ (fun _ h => h) (fun _ h => h) ?_ ?_
    · rw [disable, if_neg (by simp)]
      refine .bind (.bind (Proc.within_request.mpr (unmoved_apIsUp (by simp [DisablesAp]))) fun _ => trivial)
        fun _ => Proc.within_store.mpr fun _ h => h
    · exact fun s h => (update_sta s.itfState false).trans h
    · exact fun s (h : s.itfState .ap = true) => by simp [State.noItf, h]
  | _ => exact nomatch hc

theorem staSpec_sound (b : Build) : (staSpec b).Sound :=
  Spec.oneAtATime_sound (fun s e h hok => steady_apIsUp [] s e hok h) fun _ _ hs hok =>
    (beside_ap hok).meets (P := ApIsUp) hs (fun _ => steady_apIsUp) fun _ _ _ ht => ⟨trivial, ht⟩

/-! ## Every run -/

/-- **The interfaces are independent** in every state that calls made one at a time lead to: with the
station up, calls for the access point leave it alone, as long as a build without AP support never takes
an access point down; with the access point up, taking the station down leaves that alone. -/
theorem independent_runs (b : Build) (n : Lwip) (hn : n.Fresh) (tr : List Happening) (x : Site)
    (hr : Run (oneAtATime b).Step (start b n) tr x) (hx : x.stack = []) :
    (x.st.itfState .sta = true → ∀ tr' y,
      Run (fun x e y => (oneAtATime b).Step x e y ∧ ForAp e ∧ KeepsStation b e) x tr' y →
      (y.Settled → y.st.itfState .sta = true ∧ y.st.linkStatus = x.st.linkStatus ∧
        y.st.lwip.netifIsLinkUp .sta = x.st.lwip.netifIsLinkUp .sta) ∧
      ∀ q z, (oneAtATime b).Step y (.ask q) z → q ≠ .mmwlan .staDisable ∧ q ≠ .mmwlan .shutdown) ∧
    (x.st.itfState .ap = true → ∀ tr' y,
      Run (fun x e y => (oneAtATime b).Step x e y ∧ StationDown e) x tr' y →
      (y.Settled → y.st.itfState .ap = true) ∧
      ∀ q z, (oneAtATime b).Step y (.ask q) z → q ≠ .mmwlan .apDisable ∧ q ≠ .mmwlan .shutdown) := by
  obtain ⟨s, as⟩ := x
  obtain rfl : as = [] := hx
  have hlinked : Linked s := ((linked_sound b).idle (has_init hn) (linked_run hr) rfl).linked
  refine ⟨fun hup tr' y hr' => ?_, fun hup tr' y hr' => ?_⟩
  · have h0 : StationAs s.linkStatus (s.lwip.netifIsLinkUp .sta) s := ⟨hlinked.itfState _ hup, hup, rfl, rfl⟩
    have hS := apSpec_sound b s.linkStatus (s.lwip.netifIsLinkUp .sta)
    refine ⟨fun hy => ?_, fun q z hz => ?_⟩
    · have h := Spec.oneAtATime_settled hS steady_stationAs (fun _ h => h) (fun d _ q _ h =>
        h.1.enter (c := d.call) h.2) h0 hr' hy
      exact ⟨h.up, h.status, h.link⟩
    · have h := (hS.guard h0 hr' ⟨hz, trivial, trivial⟩).2
      exact ⟨fun hq => h (.inl hq), fun hq => h (.inr (.inl hq))⟩
  · have hS := staSpec_sound b
    refine ⟨fun hy => ?_, fun q z hz => ?_⟩
    · exact Spec.oneAtATime_settled hS steady_apIsUp (fun _ h => h) (fun d _ q _ h =>
        Inner.enter (c := d.call) (P := ApIsUp) (fun _ _ _ h => h) q h.1) hup hr' hy
    · exact not_or.mp (hS.guard hup hr' ⟨hz, trivial⟩).2

/-- The steps of `independent_runs`, to evaluate. -/
def forAp (e : Happening) : Bool :=
  match e with
  | .call c => c.onAp
  | .cb e => e.offLink
  | _ => true

theorem of_forAp {e : Happening} (h : forAp e = true) : ForAp e := by
  cases e <;> first
    | exact h
    | trivial

/-- The station comes up and is associated. -/
def stationLinked : Cues := stationUp ++ [.cb (.sta .connected)]

/-- The access point is brought up for the recorded country and taken down again. -/
def accessPointTaken : Cues :=
  .call (.setUp 1 true us) :: granted [.mmwlan (.setChannelList [⟨903500000, 1, 3, 1, 68⟩])] ++
    (.call (.setUp 1 false us) :: granted [.mmwlan .apDisable])

/-- The access point fails for want of an SSID and is taken down, beside the station. -/
theorem independent_runs_station : ∃ tr x tr' y,
    Run (oneAtATime (.small true)).Step (start (.small true) noNetifs) tr x ∧
      Run (oneAtATime (.small true)).Step x tr' y ∧ y.stack = [] ∧ x.st.linkStatus = .noip ∧
      y.st.linkStatus = x.st.linkStatus := by
  obtain ⟨tr, x, tr', y, hr, hr', hp⟩ := World.run_of_play_then (oneAtATime (.small true))
    (fun _ _ _ => true) (fun _ _ e => forAp e) (start (.small true) noNetifs) stationLinked
    accessPointTaken (fun x y => x.stack.isEmpty && x.st.itfState .sta &&
      decide (x.st.linkStatus = .noip) && y.stack.isEmpty) rfl
  simp only [Bool.and_eq_true, List.isEmpty_iff, decide_eq_true_eq] at hp
  obtain ⟨⟨⟨hx, hup⟩, hstatus⟩, hy⟩ := hp
  have hr := hr.mono fun _ _ _ h => h.1
  have hkeep := ((independent_runs (.small true) noNetifs fresh_noNetifs tr x hr hx).1 hup tr' y
    (hr'.mono fun _ e _ h => ⟨h.1, of_forAp h.2, by cases e <;> first | exact fun _ => rfl | trivial⟩)).1
    (.of_nil hy)
  exact ⟨tr, x, tr', y, hr, hr'.mono fun _ _ _ h => h.1, hy, hstatus, hkeep.2.1⟩

/-- **Without AP support, taking the access point down disables the station.** -/
theorem station_disabled : ∃ tr x tr' y,
    Run (oneAtATime (.small false)).Step (start (.small false) noNetifs) tr x ∧ x.stack = [] ∧
      x.st.itfState .sta = true ∧
      Run (fun x e y => (oneAtATime (.small false)).Step x e y ∧ ForAp e) x tr' y ∧ y.stack = [] ∧
      y.st.linkStatus ≠ x.st.linkStatus := by
  obtain ⟨tr, x, tr', y, hr, hr', hp⟩ := World.run_of_play_then (oneAtATime (.small false))
    (fun _ _ _ => true) (fun _ _ e => forAp e) (start (.small false) noNetifs) stationLinked
    (.call (.setUp 1 false us) :: granted [.mmwlan .staDisable]) (fun x y => x.stack.isEmpty &&
      x.st.itfState .sta && y.stack.isEmpty && decide (y.st.linkStatus ≠ x.st.linkStatus)) rfl
  simp only [Bool.and_eq_true, List.isEmpty_iff, decide_eq_true_eq] at hp
  exact ⟨tr, x, tr', y, hr.mono fun _ _ _ h => h.1, hp.1.1.1, hp.1.1.2,
    hr'.mono fun _ _ _ h => ⟨h.1, of_forAp h.2⟩, hp.1.2, hp.2⟩

end MmHalow.Ctrl
