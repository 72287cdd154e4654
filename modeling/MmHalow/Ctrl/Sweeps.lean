import MmHalow.Ctrl.Frame

/-!
# Scanning and association (`mm_halow_wifi_scan_cached`, `mm_halow_wifi_join`)

The radio cannot hop channels while an association completes. `mm_halow_wifi_join` stops a sweep and
waits for it, for a bounded time, before it calls `mmwlan_sta_enable`; `mm_halow_wifi_scan_cached`
looks at `link_status` before it requests a sweep. Both may be called again from host callbacks while
they wait, and morselib's callbacks may cut in between any two steps.

* `sweeps_known`: `scan_active` is clear only where no sweep is under way.
* `sweeps_exclude_joins`: **no sweep is active where a join calls `mmwlan_sta_enable`, and a sweep is
  requested only with the link down and no join in progress**, as long as the wait of a join ends
  with the sweep, and neither the link status nor the end of a sweep comes between a scan's look at
  the state and its request (`Exclusive`).
* `sweep_outlasts_wait`: the wait of a join times out, and the station is enabled during the sweep.
-/

namespace MmHalow.Ctrl

open MmHalow.Lib

/-- The call is `mm_halow_wifi_scan_cached`, or `mm_halow_wifi_join`. -/
def Call.isScan : Call → Bool
  | scanCached _ => true
  | _ => false

def Call.isJoin : Call → Bool
  | join _ => true
  | _ => false

theorem Call.isJoin_of_isScan {c : Call} (h : c.isScan = true) : c.isJoin = false := by
  cases c with
  | scanCached max => rfl
  | _ => exact nomatch h

/-- A join is in progress. -/
def Joining (is : List Doing) : Prop := ∃ i ∈ is, i.call.isJoin = true

/-- The innermost call is a scan that has neither requested a sweep nor waited for one yet. -/
def BeforeRequest : List Doing → Prop
  | [] => False
  | i :: _ => i.call.isScan = true ∧ ∀ q ∈ i.log.asked, q = .osalMalloc

/-- The request of a sweep is out. -/
def RequestOut (is : List Doing) : Prop :=
  ∃ i ∈ is, i.log.asked.head? = some (.mmwlan .scanRequest)

/-- A scan will not request a sweep: the link is not down, or a sweep is under way already. -/
def Blocked (s : State) : Prop := s.linkStatus = .down → s.scanActive = true

/-- Scans and joins are called. -/
def ScanOrJoin : Happening → Prop
  | .call c => c.isScan = true ∨ c.isJoin = true
  | _ => True

/-- **What the two functions do not check for themselves.** The wait of a join ends with the sweep.
Before a scan has made its request, no callback takes the link from down, none ends a sweep that has
not been requested yet, and inside a join none leaves the way free for it. No sweep is requested while
the request of another is out. -/
def Exclusive (b : Build) (is : List Doing) (s : State) : Happening → Prop
  | .call c => c.isScan = true → Joining is → Blocked s
  | .cb e => BeforeRequest is →
    (s.linkStatus = .down → (callback b e s).linkStatus = .down) ∧
      (s.scanActive = true → s.lib.sweeps = 0 → (callback b e s).scanActive = true) ∧
      (Joining is → Blocked (callback b e s))
  | .ask (.mmwlan .scanRequest) => ¬ RequestOut is.tail
  | .answer (.schedWait _) (idle : Bool) => (∃ i ∈ is.head?, i.call.isJoin = true) → idle = true
  | _ => True

/-- `scan_active` is clear only where no sweep is under way, and there is at most one. -/
def SweepKnown (s : State) : Prop :=
  s.lib.sweeps ≤ 1 ∧ (s.scanActive = false → s.lib.sweeps = 0)

/-- Host callbacks run while the innermost call waits for the answer to its last question. -/
def Waiting (is : List Doing) : Prop := ∃ i ∈ is.head?, ∃ q ∈ i.log.asked.head?, waits q = true

/-- What is shown where something is asked. -/
def Excluded (is : List Doing) (q : Ask) (s : State) : Prop :=
  ((∃ args, q = .mmwlan (.staEnable args)) → s.lib.sweeps = 0) ∧
    (q = .mmwlan .scanRequest → s.linkStatus = .down ∧ ¬ Joining is)

/-- The specification: calls made while another waits keep `SweepKnown`, and nothing but callbacks
happens while a question is out that does not wait. -/
def sweepSpec (b : Build) : Spec (world b) where
  ok is s e := ScanOrJoin e ∧ Exclusive b is s e
  during is s t := (SweepKnown s → SweepKnown t) ∧
    (¬ Waiting is → (world b).Calm (fun is s e => ScanOrJoin e ∧ Exclusive b is s e) is s t)
  entry is s := SweepKnown s ∧ Waiting is
  guard := Excluded
  post _ _ _ := True
  idle := SweepKnown

variable {b : Build} {s t : State} {e : Callback} {is : List Doing}

/-! ## Callbacks -/

theorem SweepKnown.of_none (h : s.lib.sweeps = 0) : SweepKnown s :=
  ⟨Nat.le_trans (Nat.le_of_eq h) (Nat.zero_le 1), fun _ => h⟩

/-- A callback ends sweeps, but starts none. -/
theorem sweeps_callback_le : (callback b e s).lib.sweeps ≤ s.lib.sweeps := by
  cases e with
  | fatal => exact Nat.zero_le _
  | scanComplete => exact Nat.sub_le _ _
  | scanRx r =>
    simp only [callback, scanRxCb]
    split <;> exact Nat.le_refl _
  | _ => exact Nat.le_refl _

theorem SweepKnown.callback (h : SweepKnown s) : SweepKnown (callback b e s) := by
  refine ⟨Nat.le_trans sweeps_callback_le h.1, fun hactive => ?_⟩
  cases e with
  | fatal => rfl
  | scanComplete => exact Nat.sub_eq_zero_of_le h.1
  | scanRx r =>
    have hs : (Ctrl.callback b (.scanRx r) s).scanActive = s.scanActive := by
      simp only [Ctrl.callback, scanRxCb]
      split <;> rfl
    exact Nat.le_zero.mp (Nat.le_trans sweeps_callback_le (Nat.le_of_eq (h.2 (hs ▸ hactive))))
  | _ => exact h.2 hactive

theorem steady_known : (sweepSpec b).Steady SweepKnown := fun _ _ _ _ h => h.callback

theorem steady_none : (sweepSpec b).Steady fun s => s.lib.sweeps = 0 := fun _ _ _ _ h =>
  Nat.le_zero.mp (Nat.le_trans sweeps_callback_le (Nat.le_of_eq h))

/-! ## Questions -/

variable {κ : Around State Ask Ask.Ans Call} {l : Log Ask Ask.Ans} {P : State → Prop}

theorem waiting_ask {q : Ask} (h : waits q = true) : Waiting (κ.infos (l.ask q)) :=
  ⟨_, rfl, q, rfl, h⟩

/-- **A question that is asked and answered keeps the sweep known.** -/
theorem request_known {q : Ask} {Q' : Log Ask Ask.Ans → q.Ans → State → Prop}
    (hP : (sweepSpec b).SteadyIn (κ.infos l) P) (hs : P s)
    (hguard : ∀ t, P t → Excluded (κ.infos l) q t) (henter : ∀ t, P t → SweepKnown (enter b κ.call q t))
    (h : ∀ t a, SweepKnown t → answers q a t = true →
      Exclusive b (κ.infos (l.ask q)) t (.answer q a) → Q' ((l.ask q).hear q a) a (leave b κ.call q a t)) :
    (sweepSpec b).wp κ l (.request q) s Q' :=
  Spec.wp_request_in (D := SweepKnown) hP hs (fun t ht _ => hguard t ht)
    (fun t _ ht hu => hu.1 (henter t ht)) (fun _ ht hw => ⟨ht, waiting_ask hw⟩)
    fun t a ht ha hok => h t a ht ha hok.2

/-- An answer that leaves the sweeps alone keeps them known. -/
theorem SweepKnown.lib {m : Morselib} (h : SweepKnown s) (hm : m.sweeps = s.lib.sweeps) :
    SweepKnown { s with lib := m } :=
  ⟨Nat.le_trans (Nat.le_of_eq hm) h.1, fun hactive => hm.trans (h.2 hactive)⟩

/-! ## A join -/

/-- What is asked of morselib in a join, or in a scan but for the request. -/
theorem excluded_of {q : Ask} (h₁ : ∀ args, q ≠ .mmwlan (.staEnable args))
    (h₂ : q ≠ .mmwlan .scanRequest) : Excluded is q s :=
  ⟨fun ⟨args, h⟩ => absurd h (h₁ args), fun h => absurd h h₂⟩

/-- **A join enables the station with no sweep active.** -/
theorem join_known {args : StaArgs} (hc : κ.call.isJoin = true) (hs : SweepKnown s) :
    (sweepSpec b).wp κ l (wifiJoin b args) s fun _ _ t => SweepKnown t := by
  unfold wifiJoin
  split
  case isTrue => exact hs
  case isFalse =>
    refine Spec.wp_bind.mpr (Spec.wp_store steady_known hs fun t ht => ?_)
    refine Spec.wp_bind.mpr (Spec.wp_store steady_known ht fun t ht => ?_)
    refine Spec.wp_bind.mpr (Spec.wp_load steady_known ht fun t ht => ?_)
    refine Spec.wp_seq (M := fun _ _ t => t.lib.sweeps = 0) ?_ fun l' _ u hu => ?_
    · cases hactive : t.scanActive with
      | false => exact ht.2 hactive
      | true =>
        refine Spec.wp_bind.mpr (Spec.wp_bind.mpr (request_known (steady_known _) ht
          (fun _ _ => excluded_of nofun nofun) (fun _ h => h) fun u (st : Status) hu _ _ => ?_))
        refine Spec.wp_bind.mpr (request_known (steady_known _) (hu.lib (by cases st <;> rfl))
          (fun _ _ => excluded_of nofun nofun) (fun _ h => h) fun v idle hv hidle hok => ?_)
        -- the wait has ended with the sweep
        obtain rfl : idle = true := hok ⟨_, rfl, hc⟩
        have hoff : v.scanActive = false := by simpa [answers] using hidle
        exact hv.2 hoff
    · refine Spec.wp_bind.mpr (request_known (steady_none _) hu
        (fun _ h => ⟨fun _ => h, nofun⟩) (fun _ h => .of_none h) fun v (st : Status) hv _ _ => ?_)
      have hleave : SweepKnown (leave b κ.call (.mmwlan (.staEnable args)) st v) :=
        hv.lib (by cases st <;> rfl)
      change Spec.wp _ _ _ (if st ≠ .success then _ else _) _ _
      split
      · exact Spec.wp_bind.mpr (Spec.wp_store steady_known hleave fun _ h => h)
      · exact hleave

/-! ## A scan -/

/-- Inside a join, the way is not free for a request. -/
def Gated (below : List Doing) (s : State) : Prop := SweepKnown s ∧ (Joining below → Blocked s)

/-- The scan has found the link down. -/
def Passed (below : List Doing) (s : State) : Prop := Gated below s ∧ s.linkStatus = .down

/-- The scan has found no sweep under way. -/
def Clear (s : State) : Prop := s.lib.sweeps = 0 ∧ s.linkStatus = .down

/-- The scan has set `scan_active`. -/
def Armed (s : State) : Prop := Clear s ∧ s.scanActive = true

section

variable (hc : κ.call.isScan = true) (hb : ∀ q ∈ l.asked, q = .osalMalloc)
include hc

theorem joining_infos : Joining (κ.infos l) ↔ Joining κ.below := by
  constructor
  · rintro ⟨i, hi, hj⟩
    obtain rfl | hi := List.mem_cons.mp hi
    · exact absurd ((Call.isJoin_of_isScan hc).symm.trans hj) Bool.false_ne_true
    · exact ⟨i, hi, hj⟩
  · rintro ⟨i, hi, hj⟩
    exact ⟨i, List.mem_cons_of_mem _ hi, hj⟩

include hb

theorem steady_gated : (sweepSpec b).SteadyIn (κ.infos l) (Gated κ.below) := fun _ _ hok hs =>
  ⟨hs.1.callback, fun hj => (hok.2 ⟨hc, hb⟩).2.2 ((joining_infos hc).mpr hj)⟩

theorem steady_passed : (sweepSpec b).SteadyIn (κ.infos l) (Passed κ.below) := fun s e hok hs =>
  ⟨steady_gated hc hb s e hok hs.1, (hok.2 ⟨hc, hb⟩).1 hs.2⟩

theorem steady_clear : (sweepSpec b).SteadyIn (κ.infos l) Clear := fun s e hok hs =>
  ⟨steady_none _ s e hok hs.1, (hok.2 ⟨hc, hb⟩).1 hs.2⟩

theorem steady_armed : (sweepSpec b).SteadyIn (κ.infos l) Armed := fun s e hok hs =>
  ⟨steady_clear hc hb s e hok hs.1, (hok.2 ⟨hc, hb⟩).2.1 hs.2 hs.1.1⟩

/-- **A sweep is requested with the link down and no join in progress.** -/
theorem ensureSweep_known (hs : Passed κ.below s) :
    (sweepSpec b).wp κ l ensureSweep s fun _ _ t => SweepKnown t := by
  refine Spec.wp_bind.mpr (Spec.wp_load_in (steady_passed hc hb) hs fun t ht => ?_)
  obtain ⟨⟨hknown, hblocked⟩, hdown⟩ := ht
  cases hactive : t.scanActive with
  | true => exact hknown
  | false =>
    have hfree : ¬ Joining (κ.infos l) := by
      intro hj
      have h := hblocked ((joining_infos hc).mp hj) hdown
      exact absurd (h.symm.trans hactive).symm Bool.false_ne_true
    have hclear : Clear t := ⟨hknown.2 hactive, hdown⟩
    refine Spec.wp_bind.mpr (Spec.wp_store_in (steady_clear hc hb) hclear fun t ht => ?_)
    refine Spec.wp_bind.mpr (Spec.wp_store_in (steady_clear hc hb) ht fun t ht => ?_)
    refine Spec.wp_bind.mpr (request_known (steady_armed hc hb) ⟨ht, rfl⟩
      (fun u hu => ⟨nofun, fun _ => ⟨hu.1.2, hfree⟩⟩) (fun u hu => ?_) fun u (st : Status) hu _ _ => ?_)
    · -- the request counts as a sweep from here on
      refine ⟨Nat.le_of_eq (congrArg (· + 1) hu.1.1), fun hoff => ?_⟩
      exact absurd (hoff.symm.trans hu.2) Bool.false_ne_true
    · change Spec.wp _ _ _ (if st ≠ .success then _ else _) _ _
      by_cases hst : st = .success
      · subst hst
        exact hu
      · rw [if_pos hst]
        have hnone : (leave b κ.call (.mmwlan .scanRequest) st u).lib.sweeps = 0 := by
          cases st <;> first | exact absurd rfl hst | exact Nat.sub_eq_zero_of_le hu.1
        exact Spec.wp_bind.mpr (Spec.wp_store steady_none hnone fun _ h => .of_none h)

theorem sweep_known {max : Nat} (hs : Passed κ.below s) :
    (sweepSpec b).wp κ l (sweep max) s fun _ _ t => SweepKnown t := by
  refine Spec.wp_seq (ensureSweep_known hc hb hs) fun l' r t ht => ?_
  split
  · exact ht
  · refine Spec.wp_bind.mpr (request_known (steady_known _) ht (fun _ _ => excluded_of nofun nofun)
      (fun _ h => h) fun u _ hu _ _ => ?_)
    exact Spec.wp_bind.mpr (Spec.wp_load steady_known hu fun _ h => h)

theorem scan_known {max : Nat} (hs : Gated κ.below s) :
    (sweepSpec b).wp κ l (wifiScanCached b max) s fun _ _ t => SweepKnown t := by
  refine Spec.wp_bind.mpr (Spec.wp_load_in (steady_gated hc hb) hs fun t ht => ?_)
  split
  case isTrue => exact ht.1
  case isFalse hdown =>
    have hpassed : Passed κ.below t := ⟨ht, Decidable.not_not.mp hdown⟩
    refine Spec.wp_bind.mpr (Spec.wp_load_in (steady_passed hc hb) hpassed fun t ht => ?_)
    split
    case isFalse => exact sweep_known hc hb ht
    case isTrue =>
      have hb' : ∀ q ∈ (l.ask .osalMalloc).asked, q = .osalMalloc := List.forall_mem_cons.mpr ⟨rfl, hb⟩
      refine Spec.wp_bind.mpr (Spec.wp_request_in (D := Passed κ.below) (steady_passed hc hb) ht
        (fun _ _ _ => excluded_of nofun nofun) (fun t u ht hu => ?_) (fun _ _ h => nomatch h)
        fun t (block : Bool) ht _ _ => ?_)
      · -- no call is made while the block is asked for
        refine Spec.SteadyIn.calm (steady_passed hc hb') (hu.2 ?_) ht
        rintro ⟨i, hi, q, hq, hw⟩
        obtain rfl := Option.some.inj hi
        obtain rfl := Option.some.inj hq
        exact nomatch hw
      refine Spec.wp_bind.mpr (Spec.wp_store_in (steady_passed hc hb') ht fun t ht => ?_)
      cases block with
      | false => exact ht.1.1
      | true =>
        refine Spec.wp_bind.mpr (Spec.wp_store_in (P := Passed κ.below) (steady_passed hc hb') ht
          fun t ht => ?_)
        exact sweep_known (l := (l.ask .osalMalloc).hear .osalMalloc true) hc hb' ht

end

/-! ## Every run -/

theorem call_meets {c : Call} (hs : SweepKnown s) (hok : (sweepSpec b).ok is s (.call c)) :
    (sweepSpec b).Meets is c s SweepKnown := by
  have hbody : (sweepSpec b).wp ⟨c, atDepth (is.length + 1) s, is⟩ .empty (c.body b)
      (atDepth (is.length + 1) s) fun _ _ t => SweepKnown t := by
    obtain ⟨hcall, hexcl⟩ := hok
    cases c with
    | scanCached max => exact scan_known rfl (fun _ h => absurd h List.not_mem_nil) ⟨hs, hexcl rfl⟩
    | join args => exact join_known rfl hs
    | _ => simp [ScanOrJoin, Call.isScan, Call.isJoin] at hcall
  refine Spec.wp_mono hbody fun _ _ t ht u hu => ⟨trivial, ?_⟩
  have hu : SweepKnown u := steady_known.calm hu ht
  exact hu

/-- **Every scan and every join keeps to it**, wherever it is called. -/
theorem sweeps_sound : (sweepSpec b).Sound where
  idle_cb _ _ h _ := h.callback
  during_refl _ _ := ⟨id, fun _ => .refl⟩
  during_trans _ _ _ _ h h' := ⟨fun hs => h'.1 (h.1 hs), fun hw => (h.2 hw).trans (h'.2 hw)⟩
  during_cb _ _ _ hok := ⟨fun h => h.callback, fun _ => .single hok⟩
  first _ _ hs hok := call_meets hs hok
  nested _ _ _ _ hs hok := Spec.wp_mono (call_meets hs.1 hok) fun _ _ _ ht u hu =>
    ⟨trivial, fun _ => (ht u hu).2, fun hw => absurd hs.2 hw⟩

/-- **Scanning and association exclude each other** in every run of scans and joins, those that host
callbacks make during their waits among them, as long as its steps are `Exclusive`. -/
theorem sweeps_exclude_joins (b : Build) (s : State) (hs : SweepKnown s) (tr : List Happening) (x : Site)
    (hr : Run (fun x e y => (world b).Step x e y ∧ ScanOrJoin e ∧ Exclusive b x.infos x.st e)
      ⟨s, []⟩ tr x) (q : Ask) (y : Site)
    (hq : (world b).Step x (.ask q) y ∧ Exclusive b x.infos x.st (.ask q)) :
    ((∃ args, q = .mmwlan (.staEnable args)) → x.st.lib.sweeps = 0) ∧
      (q = .mmwlan .scanRequest → x.st.linkStatus = .down ∧ ¬ Joining x.infos) :=
  sweeps_sound.guard hs hr ⟨hq.1, trivial, hq.2⟩

/-! ## Runs of them -/

/-- Scans and joins that wait for their sweeps, with no callback before a request. -/
def patientStep (is : List Doing) : Happening → Bool
  | .call c => (c.isScan && is.isEmpty) || c.isJoin
  | .cb _ => is.all fun i => !i.call.isScan || i.log.asked.head? != some .osalMalloc && i.log.asked != []
  | .ask (.mmwlan .scanRequest) => is.tail.isEmpty
  | .answer (.schedWait _) (idle : Bool) => idle
  | _ => true

theorem of_patientStep {b : Build} {is : List Doing} {s : State} {e : Happening}
    (h : patientStep is e = true) : ScanOrJoin e ∧ Exclusive b is s e := by
  cases e with
  | call c =>
    obtain h | h := Bool.or_eq_true_iff.mp h
    · obtain ⟨hc, hemp⟩ := Bool.and_eq_true_iff.mp h
      obtain rfl := List.isEmpty_iff.mp hemp
      exact ⟨.inl hc, fun _ ⟨i, hi, _⟩ => absurd hi List.not_mem_nil⟩
    · refine ⟨.inr h, fun hc => ?_⟩
      exact absurd (h.symm.trans (Call.isJoin_of_isScan hc)) nofun
  | cb e =>
    refine ⟨trivial, fun hb => ?_⟩
    cases is with
    | nil => exact hb.elim
    | cons i is =>
      have hi := List.all_eq_true.mp h i (List.mem_cons_self ..)
      obtain ⟨hc, hasked⟩ := hb
      cases hl : i.log.asked with
      | nil => simp [hc, hl] at hi
      | cons q l =>
        have hq : q = .osalMalloc := hasked q (hl ▸ List.mem_cons_self ..)
        simp [hc, hl, hq] at hi
  | ask q =>
    refine ⟨trivial, ?_⟩
    unfold Exclusive
    split
    case h_3 heq =>
      obtain rfl := Event.ask.inj heq
      obtain htail : is.tail = [] := List.isEmpty_iff.mp h
      rintro ⟨i, hi, -⟩
      exact absurd (htail ▸ hi) List.not_mem_nil
    all_goals trivial
  | answer q a =>
    refine ⟨trivial, ?_⟩
    unfold Exclusive
    split
    case h_4 heq =>
      obtain ⟨rfl, ha⟩ := Event.answer.inj heq
      obtain rfl := eq_of_heq ha
      exact fun _ => h
    all_goals trivial
  | _ => exact ⟨trivial, trivial⟩

/-- The network to join. -/
def network : StaArgs := ⟨[104], [], 0, none⟩

/-- The run has just asked morselib to enable the station. -/
def enables (tr : List Happening) : Bool :=
  match tr.getLast? with
  | some (.ask (.mmwlan (.staEnable args))) => args = network
  | _ => false

theorem of_enables {tr : List Happening} (h : enables tr = true) :
    tr.getLast? = some (.ask (.mmwlan (.staEnable network))) := by
  unfold enables at h
  split at h
  · next args hlast =>
    rw [hlast, of_decide_eq_true h]
  · exact nomatch h

/-- A sweep is requested, and the scan waits for it. -/
def sweepUnderWay : Cues := .call (.scanCached 8) :: granted [.osalMalloc, .mmwlan .scanRequest]

/-- The station is up and has not joined. -/
def idleStation : State :=
  { State.init (Build.small false) noNetifs with
    initted := true
    booted := true
    heap := true
    txBuf := true
    itfState := fun itf => itf = .sta
    lib := { Morselib.off (Build.small false) with inited := true, booted := true } }

theorem idleStation_known : SweepKnown idleStation := .of_none rfl

/-- A host callback joins during the sweep, and the sweep ends in time. -/
theorem sweeps_exclude_joins_nested : ∃ tr x y, Run (world (.small false)).Step ⟨idleStation, []⟩ tr x ∧
    x.infos.length = 2 ∧ (world (.small false)).Step x (.ask (.mmwlan (.staEnable network))) y ∧
      x.st.lib.sweeps = 0 := by
  obtain ⟨tr, y, hr, hy⟩ := World.run_of_play_any (world (.small false)) (fun is _ e => patientStep is e)
    ⟨idleStation, []⟩ (sweepUnderWay ++ .call (.join network) :: granted [.mmwlan .scanAbort] ++
      [.cb .scanComplete, .answer (.schedWait scanAbortMs) true])
    (fun r => enables r.1 && r.2.stack.length == 2) rfl
  obtain ⟨hlast, hlen⟩ := Bool.and_eq_true_iff.mp hy
  obtain ⟨tr', x, hx, hstep, hok⟩ := hr.unsnoc (of_enables hlast)
  have hnone := (sweeps_exclude_joins (.small false) idleStation idleStation_known tr' x
    (hx.mono fun _ _ _ h => ⟨h.1, of_patientStep h.2⟩) _ y ⟨hstep, (of_patientStep hok).2⟩).1 ⟨_, rfl⟩
  refine ⟨tr', x, y, hx.mono fun _ _ _ h => h.1, ?_, hstep, hnone⟩
  cases hstep with
  | ask => simpa [Config.infos] using hlen

/-- `ScanOrJoin`, to evaluate. -/
def scanOrJoin (e : Happening) : Bool :=
  match e with
  | .call c => c.isScan || c.isJoin
  | _ => true

theorem of_scanOrJoin {e : Happening} (h : scanOrJoin e = true) : ScanOrJoin e := by
  cases e with
  | call c => exact Bool.or_eq_true_iff.mp h
  | _ => trivial

/-- **A sweep that is not over in 5 s**: the scan has given up on it, the wait of the join times out,
and the station is enabled during the sweep. -/
theorem sweep_outlasts_wait : ∃ tr x y, Run (fun x e y => (world (.small false)).Step x e y ∧ ScanOrJoin e)
    ⟨idleStation, []⟩ tr x ∧ SweepKnown idleStation ∧
      (world (.small false)).Step x (.ask (.mmwlan (.staEnable network))) y ∧ x.st.lib.sweeps ≠ 0 := by
  obtain ⟨tr, y, hr, hy⟩ := World.run_of_play_any (world (.small false))
    (fun _ _ e => scanOrJoin e) ⟨idleStation, []⟩
    (sweepUnderWay ++ .answer (.schedWait scanMs) false :: .call (.join network) ::
      granted [.mmwlan .scanAbort] ++ [.answer (.schedWait scanAbortMs) false])
    (fun r => enables r.1 && r.2.st.lib.sweeps == 1) rfl
  obtain ⟨hlast, hsweeps⟩ := Bool.and_eq_true_iff.mp hy
  obtain ⟨tr', x, hx, hstep, -⟩ := hr.unsnoc (of_enables hlast)
  refine ⟨tr', x, y, hx.mono fun _ _ _ h => ⟨h.1, of_scanOrJoin h.2⟩, idleStation_known, hstep, ?_⟩
  cases hstep with
  | @ask s =>
    have hone : s.lib.sweeps = 1 := beq_iff_eq.mp hsweeps
    exact fun h => absurd (hone.symm.trans h) Nat.one_ne_zero

end MmHalow.Ctrl
