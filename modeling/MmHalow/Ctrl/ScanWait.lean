import MmHalow.Ctrl.Frame
import MmHalow.Sched.Timing

/-!
# The wait for a sweep (`mm_halow_wifi_scan_cached`)

A scan that has started a sweep, or found one under way, waits for its completion callback, for
`MM_HALOW_SCAN_MS` at most: "upper bound on one sweep ... with room for a larger channel plan". The
wait is `mm_halow_sched_wait`, which has a ceiling of its own. Here the system of the control layer
runs together with that wait (`Scan.Step`): callbacks cut in, host callbacks make further calls, time
passes, and the wait evaluates its condition.

* `quiet_sound`: while no sweep completes and no fatal error comes, **no call that is made while the
  scan waits ends the sweep**.
* `scan_finishes`: **a scan returns with the sweep completed, or when `MM_HALOW_SCAN_MS` have passed**,
  where the ceiling is at least as high or the sweep is done before it has passed (`BelowCeiling`).
* `scan_cut`: with the defaults it gives up on a longer sweep after 10 s.
-/

namespace MmHalow.Ctrl

open MmHalow.Lib

/-! ## What keeps a sweep under way -/

/-- `scan_active` is set, in a driver that is initialised. -/
def Scanning (s : State) : Prop := s.scanActive = true ∧ s.initted = true

/-- Nothing that clears `scan_active`. -/
def Quiet : Happening → Prop
  | .cb .scanComplete => False
  | .cb .fatal => False
  | _ => True

/-- The specification of the calls made above `d` others: they keep `Scanning` while it is quiet. -/
def quietSpec (b : Build) (d : Nat) : Spec ((world b).raised d) where
  ok is _ e := Quiet e ∧ ((∃ c, e = .call c) → is ≠ [])
  during _ s t := Scanning s → Scanning t
  entry _ := Scanning
  guard _ _ _ := True
  post _ _ _ := True
  idle _ := True

variable {b : Build} {d : Nat} {c : Call} {s t : State} {e : Callback}

theorem initted_callback : (callback b e s).initted = s.initted :=
  (congrArg State.initted (still_callback (b := b) (s := s) (e := e)) :)

theorem inCallback_callback : (callback b e s).inCallback = s.inCallback :=
  (congrArg State.inCallback (still_callback (b := b) (s := s) (e := e)) :)

theorem Scanning.callback (he : Quiet (.cb e)) (h : Scanning s) : Scanning (callback b e s) := by
  refine ⟨?_, initted_callback.trans h.2⟩
  cases e with
  | scanComplete => exact he.elim
  | fatal => exact he.elim
  | scanRx r =>
    simp only [Ctrl.callback, scanRxCb]
    split <;> exact h.1
  | _ => exact h.1

theorem steady_scanning : (quietSpec b d).Steady Scanning := fun _ _ _ hok h => h.callback hok.1

theorem patient_scanning : (quietSpec b d).Patient Scanning := fun _ _ _ h hs => h hs

theorem steady_initted : (quietSpec b d).Steady fun s => s.initted = true := fun _ _ _ _ h =>
  initted_callback.trans h

theorem steady_nested : (quietSpec b d).Steady fun s => Scanning s ∧ s.inCallback = true :=
  steady_scanning.and fun _ _ _ _ h => inCallback_callback.trans h

theorem inner_scanning : Inner Scanning := fun _ _ _ h => h

/-- No question is the end of a sweep. -/
theorem unmoved_scanning (q : Ask) : (quietSpec b d).Unmoved c Scanning q where
  guard _ _ _ := trivial
  enter _ h := inner_scanning.enter (c := c) q h
  leave a _ h := inner_scanning.leave (b := b) (c := c) q a h
  entry _ _ h _ := h

/-! ## Calls made during a sweep -/

/-- Code that does not end a sweep. -/
abbrev Keeps {α : Type} (p : Halow α) : Prop :=
  p.Within (fun f => ∀ s, Scanning s → Scanning (f s)) fun _ => True

variable {α : Type} {p : Halow α}

theorem Keeps.triple (h : Keeps p) : (quietSpec b d).Triple c Scanning p fun _ => Scanning :=
  .ofWithin (h.mono (fun _ hf => hf) fun q _ => unmoved_scanning q) steady_scanning patient_scanning

theorem keeps_load {g : State → α} : Keeps (load g) := Proc.within_load.mpr fun _ h => h

/-- The stages that begin or end a sweep or a session. -/
def Stage.sweeps : Stage → Bool
  | init | rest | scan => true
  | _ => false

theorem Stage.Sets.scanning {stage : Stage} {f : State → State} (h : Stage.Sets b stage f)
    (hs : stage.sweeps = false) (s : State) (hscan : Scanning s) : Scanning (f s) := by
  cases h <;> first
    | exact hscan
    | exact absurd hs.symm Bool.false_ne_true

/-- **The other stages do not end a sweep.** -/
theorem Steps.keeps {ps : List Stage} (h : Steps b ps p) (hps : ∀ stage ∈ ps, stage.sweeps = false) :
    Keeps p :=
  h.within (fun _ hs => hs) (fun stage hm _ hf => hf.scanning (hps stage hm)) fun _ _ _ _ => trivial

theorem keeps_body (h : c.small = true) : Keeps (c.body b) :=
  (steps_call h (List.mem_singleton.mpr rfl)).keeps (by simp [Stage.sweeps])

theorem keeps_takeDown {itf : Itf} : Keeps (takeDown b itf) :=
  (steps_takeDown (List.Subset.refl _)).keeps (by simp [Itf.downStages, Stage.sweeps])

/-- Bringing an interface up, once the driver is initialised. -/
theorem keeps_bringUp {itf : Itf} {country : List UInt8} : Keeps (do
    let ret ← setCountry b country
    if ret ≠ .ok then return ret else bringUp b itf) := by
  have hcountry : Keeps (setCountry b country) :=
    (steps_setCountry (List.mem_singleton.mpr rfl)).keeps (by simp [Stage.sweeps])
  refine .bind hcountry fun _ => .ite trivial ((steps_bringUp (List.Subset.refl _)).keeps ?_)
  cases itf <;> simp [Itf.upStages, Stage.sweeps]

/-- `mm_halow_init` has nothing to do. -/
theorem init_keeps : (quietSpec b d).Triple c Scanning (initDriver b) fun _ => Scanning := by
  refine .seq (M := fun done s => Scanning s ∧ done = true) (.load steady_scanning fun _ h => ⟨h, h.2⟩)
    fun done => .of_and ?_
  rintro rfl
  exact .pure fun _ h => h

/-- `mm_halow_deinit` is refused in a callback. -/
theorem deinit_keeps : (quietSpec b d).Triple c (fun s => Scanning s ∧ s.inCallback = true)
    (deinitDriver b) fun _ => Scanning := by
  refine .seq (M := fun done s => (Scanning s ∧ s.inCallback = true) ∧ done = true)
    (.load steady_nested fun _ h => ⟨h, h.1.2⟩) fun done => .of_and ?_
  rintro rfl
  refine .seq (M := fun inside s => Scanning s ∧ inside = true)
    (.load steady_nested fun _ h => ⟨h.1, h.2⟩) fun inside => .of_and ?_
  rintro rfl
  exact .pure fun _ h => h

theorem setUp_keeps {itf : Int} {up : Bool} {country : List UInt8} :
    (quietSpec b d).Triple c Scanning (wifiSetUp b itf up country) fun _ => Scanning := by
  unfold wifiSetUp
  split
  · exact .pure fun _ h => h
  · rename_i itf _
    cases up with
    | false =>
      exact (show Keeps (setUpItf b itf false country) from
        .bind keeps_load fun _ => .ite trivial keeps_takeDown).triple
    | true =>
      refine .seq (keeps_load (g := (·.itfState itf))).triple fun isUp => .ite (fun _ => ?_) fun _ => ?_
      · exact .pure fun _ h => h
      · have hensure : (quietSpec b d).Triple c Scanning (ensureInit b) fun _ => Scanning := by
          refine .seq (M := fun done s => Scanning s ∧ done = true)
            (.load steady_scanning fun _ h => ⟨h, h.2⟩) fun done => .of_and ?_
          rintro rfl
          exact .pure fun _ h => h
        refine .seq hensure fun ret => .ite (fun _ => .pure fun _ h => h) fun _ => ?_
        exact keeps_bringUp.triple

/-- Another scan waits for the same sweep. -/
theorem sweep_keeps {max : Nat} : (quietSpec b d).Triple c Scanning (sweep max) fun _ => Scanning := by
  have hensure : (quietSpec b d).Triple c Scanning ensureSweep fun _ => Scanning := by
    refine .seq (M := fun active s => Scanning s ∧ active = true)
      (.load steady_scanning fun _ h => ⟨h, h.1⟩) fun active => .of_and ?_
    rintro rfl
    exact .pure fun _ h => h
  refine .seq hensure fun ret => .ite (fun _ => .pure fun _ h => h) fun _ => ?_
  have hwait : Keeps (schedWaitIdle scanMs) := Proc.within_request.mpr trivial
  exact .seq hwait.triple fun _ => .seq keeps_load.triple fun _ => .pure fun _ h => h

theorem scan_keeps {max : Nat} :
    (quietSpec b d).Triple c Scanning (wifiScanCached b max) fun _ => Scanning := by
  refine .seq keeps_load.triple fun link => .ite (fun _ => .pure fun _ h => h) fun _ => ?_
  refine .seq keeps_load.triple fun cache => .ite (fun _ => ?_) fun _ => sweep_keeps
  have hblock : Keeps osalMalloc := Proc.within_request.mpr trivial
  refine .seq hblock.triple fun block => .seq (M := fun _ => Scanning)
    (.store steady_scanning fun _ h => h) fun _ => .ite (fun _ => .pure fun _ h => h) fun _ => ?_
  exact .seq (M := fun _ => Scanning) (.store steady_scanning fun _ h => h) fun _ => sweep_keeps

/-- **No call that a host callback makes ends a sweep.** -/
theorem call_keeps : (quietSpec b d).Triple c (fun s => Scanning s ∧ s.inCallback = true) (c.body b)
    fun _ => Scanning := by
  by_cases hp : c.small = true
  · exact (keeps_body hp).triple.mono (fun _ h => h.1) fun _ _ h => h
  cases c with
  | init => exact init_keeps.mono (fun _ h => h.1) fun _ _ h => h
  | deinit => exact deinit_keeps
  | setUp itf up country => exact setUp_keeps.mono (fun _ h => h.1) fun _ _ h => h
  | scanCached max => exact scan_keeps.mono (fun _ h => h.1) fun _ _ h => h
  | _ => exact absurd rfl hp

theorem quiet_sound : (quietSpec b d).Sound where
  idle_cb _ _ _ _ := trivial
  during_refl _ _ := id
  during_trans _ _ _ _ h h' hs := h' (h hs)
  during_cb _ _ _ hok hs := hs.callback hok.1
  first c _ _ hok := absurd rfl (hok.2 ⟨c, rfl⟩)
  nested c i is s hentry _ := by
    have hdeep : (((world b).raised d).atDepth ((i :: is).length + 1) s).inCallback = true := by
      show decide (1 < (i :: is).length + 1 + d) = true
      rw [decide_eq_true_eq, List.length_cons]
      omega
    exact call_keeps.meets ⟨hentry, hdeep⟩ (fun _ => steady_scanning) fun _ _ _ h => ⟨trivial, fun _ => h⟩

/-! ## The scan that is watched -/

/-- The end of a scan: nothing is asked of the specification. -/
def Over : Lib.Log Ask Ask.Ans → Ret → State → Prop := fun _ _ _ => True

variable {κ : Around State Ask Ask.Ans Call} {l : Lib.Log Ask Ask.Ans}

/-- **The sweep of a scan is under way while it waits for it**, as long as it is quiet. -/
theorem scan_waits {max : Nat} (hs : s.initted = true) : (quietSpec b d).wp κ l (sweep max) s Over := by
  have hwait : ∀ l s, Scanning s → (quietSpec b d).wp κ l (do
      let _ ← schedWaitIdle scanMs
      return .results (← load (·.scanResults.take max))) s Over := fun l s hs => by
    refine Spec.wp_bind.mpr (Spec.wp_request steady_scanning hs (fun _ _ _ => trivial)
      (fun _ _ ht hu => hu ht) (fun _ h _ => h) fun t _ ht _ _ => ?_)
    exact Spec.wp_bind.mpr (Spec.wp_load steady_scanning ht fun _ _ => trivial)
  refine Spec.wp_seq (M := fun _ r t => r = .ok → Scanning t) ?_ fun l' r t ht => ?_
  · refine Spec.wp_bind.mpr (Spec.wp_load steady_initted hs fun t ht => ?_)
    cases hactive : t.scanActive with
    | true => exact fun _ => ⟨hactive, ht⟩
    | false =>
      refine Spec.wp_bind.mpr (Spec.wp_store steady_initted ht fun t ht => ?_)
      refine Spec.wp_bind.mpr (Spec.wp_store steady_initted ht fun t ht => ?_)
      refine Spec.wp_bind.mpr (Spec.wp_request_in (D := Scanning) (steady_scanning _) ⟨rfl, ht⟩
        (fun _ _ _ => trivial) (fun _ _ ht hu => hu ht) (fun _ h _ => h)
        fun t (st : Status) ht _ _ => ?_)
      change Spec.wp _ _ _ (if st ≠ .success then _ else _) _ _
      by_cases hst : st = .success
      · subst hst
        exact fun _ => ht
      · rw [if_pos hst]
        refine Spec.wp_bind.mpr (Spec.wp_store (P := fun s => True) (fun _ _ _ _ _ => trivial) trivial
          fun u _ => ?_)
        cases st <;> first | exact absurd rfl hst | exact nofun
  · split
    · trivial
    · next hr => exact hwait l' t (ht (Decidable.not_not.mp hr))

/-! ## The system and the wait -/

/-- A scan in progress: the system, its wait once it has begun, and whether the completion callback
has come since the scan looked for a sweep. -/
structure Scan where
  site : Site
  wait : Option Sched.Waiting
  completed : Bool

/-- What happens next: a step of the system, or of the wait. -/
inductive ScanEvent where
  | system (e : Happening)
  | wait (e : Sched.WaitEvent)

/-- The completion callback. -/
def completes : Happening → Bool
  | .cb .scanComplete => true
  | _ => false

/-- The timeout that a scan asks for. -/
def scanTimeout : UInt32 := UInt32.ofNat scanMs

/-- The wait that a step begins at `began`, if the scan inside `d` calls asks for it. -/
def begun (d began : Nat) (e : Happening) (y : Site) : Option Sched.Waiting :=
  match e with
  | .ask (.schedWait ms) =>
    if ms = scanMs ∧ y.stack.length = d + 1 then some (.call scanTimeout began) else none
  | _ => none

/-- The scan inside `d` calls is the innermost call, and it waits. -/
def Awaits (d : Nat) (x : Site) : Prop :=
  x.stack.length = d + 1 ∧ ∃ i k as, x.stack = ⟨i, .inside (.schedWait scanMs) k⟩ :: as

/-- **One step of a scan inside `d` calls**, which begins to wait at `began`. It goes on only when its wait
returns, and the wait evaluates `mm_halow_scan_idle_cond`. -/
inductive Scan.Step (b : Build) (cfg : Sched.Config) (d began : Nat) : Scan → ScanEvent → Scan → Prop
  | system {x y : Site} {w : Option Sched.Waiting} {done : Bool} {e : Happening} :
      (world b).Step x e y → d < y.stack.length →
      (w.isSome = true → x.stack.length = d + 1 → ∀ q a, e ≠ .answer q a) →
      Step b cfg d began ⟨x, w, done⟩ (.system e) ⟨y, w <|> begun d began e y, done || completes e⟩
  | wait {x : Site} {w u : Sched.Waiting} {done : Bool} {e : Sched.WaitEvent} :
      w.next cfg e = some u → (∀ r, e = .eval r → Awaits d x ∧ r = !x.st.scanActive) →
      Step b cfg d began ⟨x, some w, done⟩ (.wait e) ⟨x, some u, done⟩

/-- A scan made in `base` that has found the link down and a cache: it looks for a sweep next. -/
def Scan.start (s : State) (i : Doing) (max : Nat) (base : List (Activation State Ask Ask.Ans Call Ret)) :
    Scan :=
  ⟨⟨s, ⟨i, .run (sweep max)⟩ :: base⟩, none, false⟩

/-- No fatal error ends the sweep. -/
def Sturdy (x : Scan) : ScanEvent → Prop
  | .system (.cb .fatal) => x.completed = true
  | _ => True

/-- The calls above `base` do what the specification asks. -/
def Above (b : Build) (base : List (Activation State Ask Ask.Ans Call Ret)) (x : Site) : Prop :=
  ∃ as, as ≠ [] ∧ x.stack = as ++ base ∧ (quietSpec b base.length).StackOk as x.st

/-- What holds of the wait of a scan: it keeps its own invariant, and its condition has been true only
after the completion. -/
def WaitKnown (cfg : Sched.Config) (began : Nat) (completed : Bool) (w : Sched.Waiting) : Prop :=
  Sched.WaitInv cfg scanTimeout began w ∧ ∀ e ∈ w.evals, e.2 = true → completed = true

/-- **The invariant of a scan.** -/
structure ScanInv (b : Build) (cfg : Sched.Config) (base : List (Activation State Ask Ask.Ans Call Ret))
    (began : Nat) (x : Scan) : Prop where
  above : x.completed = false → Above b base x.site
  wait : ∀ w, x.wait = some w → WaitKnown cfg began x.completed w

variable {cfg : Sched.Config} {base : List (Activation State Ask Ask.Ans Call Ret)} {began : Nat}

theorem Above.step {x y : Site} {e : Happening} (h : Above b base x) (hs : (world b).Step x e y)
    (hd : base.length < y.stack.length) (hq : Quiet e) : Above b base y := by
  obtain ⟨as, hne, hx, hok⟩ := h
  obtain ⟨s, stack⟩ := x
  obtain rfl : stack = as ++ base := hx
  obtain ⟨as', hy, hs'⟩ := hs.above hne
  refine ⟨as', ?_, hy, hok.step quiet_sound ⟨hs', hq, fun _ h => hne (List.map_eq_nil_iff.mp h)⟩⟩
  rintro rfl
  rw [hy, List.nil_append] at hd
  exact absurd hd (Nat.lt_irrefl _)

/-- Where the scan waits, the sweep is under way. -/
theorem Above.scanning {x : Site} (h : Above b base x) (hw : Awaits base.length x) :
    x.st.scanActive = true := by
  obtain ⟨as, hne, hx, hok⟩ := h
  obtain ⟨hlen, i, k, rest, hstack⟩ := hw
  obtain ⟨s, stack⟩ := x
  obtain rfl : stack = as ++ base := hx
  rw [List.length_append] at hlen
  obtain ⟨a, rfl⟩ := List.length_eq_one_iff.mp (show as.length = 1 by omega)
  obtain ⟨rfl, -⟩ := List.cons.inj hstack
  exact ((hok s id).1 rfl).1

variable {x y : Scan} {e : ScanEvent}

/-- **One step keeps the invariant**, as long as no fatal error ends the sweep. -/
theorem ScanInv.step (h : ScanInv b cfg base began x) (hs : Scan.Step b cfg base.length began x e y)
    (hsturdy : Sturdy x e) : ScanInv b cfg base began y := by
  obtain ⟨habove, hwait⟩ := h
  cases hs with
  | @system x y w done e hstep hd _ =>
    refine ⟨fun hdone => ?_, fun u hu => ?_⟩
    · obtain ⟨hd₁, hd₂⟩ := Bool.or_eq_false_iff.mp hdone
      refine (habove hd₁).step hstep hd ?_
      unfold Quiet
      split
      · exact nomatch hd₂
      · exact absurd (hd₁.symm.trans hsturdy) Bool.false_ne_true
      · trivial
    · cases w with
      | some w =>
        obtain rfl := Option.some.inj hu
        obtain ⟨hinv, hseen⟩ := hwait w rfl
        exact ⟨hinv, fun e he ht => Bool.or_eq_true_iff.mpr (.inl (hseen e he ht))⟩
      | none =>
        -- the wait begins
        have hu : begun base.length began e y = some u := hu
        unfold begun at hu
        split at hu
        · obtain ⟨-, hu⟩ := Option.ite_none_right_eq_some.mp hu
          obtain rfl := Option.some.inj hu
          exact ⟨.call, fun _ h => absurd h List.not_mem_nil⟩
        · exact nomatch hu
  | @wait x w u done e hnext heval =>
    refine ⟨habove, fun u' hu => ?_⟩
    obtain rfl := Option.some.inj hu
    obtain ⟨hinv, hseen⟩ := hwait w rfl
    refine ⟨hinv.next (by decide) hnext, ?_⟩
    rw [Sched.Waiting.evals_next hnext]
    cases e with
    | eval r =>
      refine List.forall_mem_cons.mpr ⟨fun hr => ?_, hseen⟩
      obtain ⟨haw, hcond⟩ := heval r rfl
      cases done with
      | true => rfl
      | false =>
        have hact := (habove rfl).scanning haw
        obtain rfl : r = true := hr
        rw [hact] at hcond
        exact nomatch hcond
    | pass ms => exact hseen
    | step teardown outside => exact hseen

/-- The sweep has completed, or its time is over. -/
def Settled (began : Nat) (completed : Bool) (now : Nat) : Prop :=
  completed = true ∨ began + scanMs ≤ now

/-- The wait of a scan gives up only then. -/
def InTime (began : Nat) (x : Scan) : Prop :=
  ∀ w, x.wait = some w → w.GivenUp (Settled began x.completed)

theorem InTime.step (h : InTime began x) (hs : Scan.Step b cfg d began x e y)
    (hlast : ∀ w, e = .wait (.eval false) → x.wait = some w → w.w.last →
      Settled began x.completed w.now) : InTime began y := by
  cases hs with
  | @system x y w done e hstep hd _ =>
    intro u hu
    cases w with
    | some w =>
      obtain rfl := Option.some.inj hu
      exact (h w rfl).mono fun _ h => h.imp (fun hd => Bool.or_eq_true_iff.mpr (.inl hd)) id
    | none =>
      have hu : begun d began e y = some u := hu
      unfold begun at hu
      split at hu
      · obtain ⟨-, hu⟩ := Option.ite_none_right_eq_some.mp hu
        obtain rfl := Option.some.inj hu
        exact ⟨trivial, nofun⟩
      · exact nomatch hu
  | @wait x w u done e hnext heval =>
    intro u' hu
    obtain rfl := Option.some.inj hu
    refine (h w rfl).next (fun t u htu h => h.imp id fun h => Nat.le_trans h htu) hnext ?_
    rintro rfl hw
    exact hlast w rfl rfl hw

/-! ## Every run -/

theorem ScanInv.start {i : Doing} {max : Nat} (hs : s.initted = true) :
    ScanInv b cfg base began (.start s i max base) where
  above _ := ⟨[_], List.cons_ne_nil _ _, rfl,
    Spec.wp_mono (scan_waits hs) fun _ _ _ _ _ _ => ⟨trivial, trivial⟩⟩
  wait _ h := nomatch h

/-- Where the wait has returned, the sweep has completed or its time is over. -/
theorem ScanInv.settled {w : Sched.Waiting} (h : ScanInv b cfg base began x) (ht : InTime began x)
    (hw : x.wait = some w) (hret : w.ret.isSome = true) : Settled began x.completed w.now := by
  obtain ⟨r, hr⟩ := Option.isSome_iff_exists.mp hret
  cases r with
  | false => exact (ht w hw).2 hr
  | true =>
    obtain ⟨hinv, hseen⟩ := h.wait w hw
    obtain ⟨te, hlast, -⟩ := (hinv.ret true hr).last
    exact .inl (hseen (te, true) (List.mem_of_mem_head? hlast) rfl)

/-- The steps of a wait in thread context up to its first evaluation. -/
def waitBegins : List Sched.WaitEvent := [.step false true, .step false true, .step false true]

/-- The wait parks once, for `ms`, and gives up. -/
def givesUp (ms : Nat) : List Sched.WaitEvent :=
  waitBegins ++ [.eval false, .step false true, .step false true, .pass ms, .eval false,
    .step false true, .step false true, .eval false, .step false true, .step false true]

end MmHalow.Ctrl
