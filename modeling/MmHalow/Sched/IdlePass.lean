import MmHalow.Sched.Skipped

/-!
# Idle passes (`mm_halow_sched_run` while nothing is pending)

`mm_halow_poll_func` leaves a pass out while nothing is pending, because the pass "would find every
task parked exactly where the last one left it". Here the pass is made: thread context or PendSV steps
through `mm_halow_sched_run` by itself, with whatever time passing and whatever answers from outside.

* `loneSteps`: what a context does where nothing cuts in.
* `kept`: the globals without the clock's words of the scheduler and the record of evaluations.
* `turn_idle`: a turn of a task whose wait goes on parks it again.
* `walk_idle`: and so the walk leaves every task where it was.
* `idle_pass`: **while nothing is pending, `mm_halow_sched_run` returns and changes nothing**, apart
  from giving the stacks of dead tasks back, and leaves nothing pending. Not during teardown, where a
  pass cuts the waits short that have no timeout.
-/

namespace MmHalow.Sched

open MmHalow.Lib MmHalow.Lib.Clock MmHalow.Osal

variable {cfg : Config} {x : Ctx} {o : Choice} {os : List Choice} {g g' : Globals} {t : TaskId}
  {fr rest : List Frame} {c c' : Context}

/-! ## A context by itself -/

/-- One step of a context; nothing more where it has nothing to do. -/
def loneStep (cfg : Config) (x : Ctx) (p : Globals × Option Context) (o : Choice) : Globals × Option Context :=
  match p.2 with
  | some c => c.step cfg x o (advance o.dt p.1)
  | none => p

/-- The context goes on with nothing cutting in. -/
def loneSteps (cfg : Config) (x : Ctx) (p : Globals × Option Context) (os : List Choice) :
    Globals × Option Context :=
  os.foldl (loneStep cfg x) p

/-- The milliseconds that pass. -/
def lapse (os : List Choice) : Nat := (os.map Choice.dt).sum

theorem lapse_append (os os' : List Choice) : lapse (os ++ os') = lapse os + lapse os' := by
  simp only [lapse, List.map_append, List.sum_append]

theorem loneSteps_append (p : Globals × Option Context) (os os' : List Choice) :
    loneSteps cfg x p (os ++ os') = loneSteps cfg x (loneSteps cfg x p os) os' := List.foldl_append

theorem loneSteps_none : loneSteps cfg x (g, none) os = (g, none) := by
  induction os with
  | nil => rfl
  | cons o os ih => exact ih

/-- The machine, where the context goes on as `c`. -/
def Machine.goes (s : Machine) (g : Globals) (c : Context) : Ctx → Machine
  | .thread => { s with g := g, thread := c }
  | .irq => { s with g := g, pendsv := some c }

/-- The event that is a step of the context. -/
def stepOf (o : Choice) : Ctx → Event
  | .thread => .thread o
  | .irq => .pendsv o

/-- It is a run of the machine, where the context is the one to go on. -/
theorem loneSteps_run {s : Machine} (hisrs : s.isrs = []) (hx : x = .thread → s.pendsv = none)
    (h : loneSteps cfg x (g, some c) os = (g', some c')) :
    Run (Step cfg) (s.goes g c x) (os.map fun o => stepOf o x) (s.goes g' c' x) := by
  induction os generalizing g c with
  | nil =>
    obtain ⟨rfl, hc⟩ := Prod.mk.inj h
    obtain rfl := Option.some.inj hc
    exact Run.nil
  | cons o os ih =>
    have hcons : loneSteps cfg x (c.step cfg x o (advance o.dt g)) os = (g', some c') := h
    rcases hstep : c.step cfg x o (advance o.dt g) with ⟨g₁, _ | c₁⟩
    · rw [hstep, loneSteps_none] at hcons
      exact nomatch (Prod.mk.inj hcons).2
    · rw [hstep] at hcons
      have hs : Step cfg (s.goes g c x) (stepOf o x) (s.goes g₁ c₁ x) := by
        cases x with
        | thread => simp [Step, step, Machine.goes, stepOf, hisrs, hx rfl, hstep]
        | irq => simp [Step, step, Machine.goes, stepOf, hisrs, hstep]
      exact Run.cons hs (ih hcons)

/-- A step of `mm_halow_sched_run` outside a turn. -/
theorem loneStep_body {pc : RunPc} {l : List Frame} (hpc : ∀ pass t, pc ≠ .inTurn pass t) :
    loneStep cfg x (g, some ⟨fr, some ⟨pc, l⟩⟩) o =
      ((bodyStep cfg (advance o.dt g) pc).1, some ⟨fr, (bodyStep cfg (advance o.dt g) pc).2⟩) := by
  cases pc with
  | inTurn pass t => exact absurd rfl (hpc pass t)
  | _ => rfl

/-- A step in a turn. -/
theorem loneStep_turn {pass : Nat} {l l' : List Frame}
    (h : stackStep cfg x o (advance o.dt g) l = (g', .frames l')) :
    loneStep cfg x (g, some ⟨fr, some ⟨.inTurn pass t, l⟩⟩) o = (g', some ⟨fr, some ⟨.inTurn pass t, l'⟩⟩) := by
  simp only [loneStep, Context.step, h]

/-- A step that ends a turn. -/
theorem loneStep_switch {pass : Nat} {l l' : List Frame}
    (h : stackStep cfg x o (advance o.dt g) l = (g', .switch t l')) :
    loneStep cfg x (g, some ⟨fr, some ⟨.inTurn pass t, l⟩⟩) o =
      (setTask g' t fun k => { k with sp := l' }, some ⟨fr, some ⟨.clearCur pass t, []⟩⟩) := by
  simp only [loneStep, Context.step, h, if_true]

/-! ## What stays -/

/-- The frame without the record of its evaluations. -/
def Frame.bare : Frame → Frame
  | .wait c _ w => .wait c [] w
  | f => f

/-- **What a pass is not to change**: everything but the clock's words of the scheduler and the
records of evaluations. -/
def kept (g : Globals) : Globals :=
  { g with
    now := 0
    task := fun t => { g.task t with sp := (g.task t).sp.map Frame.bare }
    woken := false
    wakeAt := 0
    deadline := 0
    polledAt := 0
    passAt := 0
    passed := false }

theorem kept_reap (g : Globals) : kept (reap g) = reap (kept g) := by
  unfold kept reap
  congr 1
  funext t
  simp only
  split_ifs <;> rfl

/-! ## A turn -/

theorem holds_advance {c : Cond} {dt : Nat} : c.holds (advance dt g) = c.holds g := by
  cases c <;> rfl

/-- An evaluation of a condition that is false changes nothing. -/
theorem evalCond_false {c : Cond} (h : c.holds g = false) : evalCond cfg c g = (false, g) := by
  cases c with
  | notified u =>
    have hz : (g.task u).notify = 0 := by simpa [Cond.holds] using h
    simp [evalCond, taskNotified, hz]
  | mutexAcquired m =>
    have hl : (g.mutex m).locked = true := by simpa [Cond.holds] using h
    simp [evalCond, Osal.mutexAcquired, hl]
  | semTaken s =>
    have hz : (g.sem s).count = 0 := by simpa [Cond.holds, UInt32.pos_iff_ne_zero] using h
    simp [evalCond, Osal.semTaken, hz]
  | sembTaken s =>
    have hz : g.semb s = false := h
    have hu : Function.update g.semb s false = g.semb := hz ▸ Function.update_eq_self s g.semb
    simp [evalCond, Osal.sembTaken, hz, hu]
  | queuePopped q =>
    have hz : ¬ 0 < (g.queue q).count := by simpa [Cond.holds] using h
    simp [evalCond, queuePopFromIsr, hz]
  | queuePushed q item =>
    have hz : ¬ (g.queue q).count < (g.queue q).numItems := by simpa [Cond.holds] using h
    simp [evalCond, queuePushFromIsr, hz]
  | isDead u =>
    have hz : (g.task u).state ≠ .dead := by simpa [Cond.holds] using h
    simp [evalCond, hz]

/-- The task is parked in a wait whose condition is false and whose deadline is not reached by the
time `E`. -/
def Stays (E : Nat) (g : Globals) (t : TaskId) : Prop :=
  ∃ c evals w rest, (g.task t).sp = .wait c evals w :: rest ∧ w.pc = .cond ∧ w.timeoutMs ≠ 0 ∧
    c.holds g = false ∧
    (w.forever = false → w.timeoutMs.toNat < 2 ^ 31 ∧ ∀ n, g.now ≤ n → n ≤ E → ¬ w.over n)

/-- The scheduler's deadline is not reached at the time `E`. -/
def Ahead (E : Nat) (wakeAt : UInt32) : Prop := reached (tick E) wakeAt = false

/-- A wait that is not over has its deadline ahead. -/
theorem Wait.ahead {w : Wait} {E : Nat} (hlim : w.timeoutMs.toNat < 2 ^ 31) (h : ¬ w.over E) :
    Ahead E (w.start + w.timeoutMs) := by
  unfold Wait.over at h
  rw [UInt32.le_iff_toNat_le] at h
  have hdiff : tick E - (w.start + w.timeoutMs) = tick E - w.start - w.timeoutMs := by
    simp only [UInt32.sub_eq_add_neg, UInt32.neg_add, UInt32.add_assoc]
  unfold Ahead reached
  rw [decide_eq_false_iff_not, hdiff, UInt32.toNat_sub]
  have hlt : (tick E - w.start).toNat < 2 ^ 32 := UInt32.toNat_lt _
  omega

/-- The scheduler switches to the task. -/
theorem turn_begins {pass : Nat} (hr : (g.task t).state = .ready) (hlen : os.length = 3) :
    loneSteps cfg x (g, some ⟨fr, some ⟨.walk pass (some t), []⟩⟩) os =
      ({ g with now := g.now + lapse os, cur := some t },
        some ⟨fr, some ⟨.inTurn pass t, (g.task t).sp⟩⟩) := by
  obtain ⟨o₁, o₂, o₃, rfl⟩ := List.length_eq_three.mp hlen
  simp [loneSteps, loneStep_body, bodyStep, advance, hr, lapse, Nat.add_assoc]

/-- A wait that goes on parks. -/
theorem turn_waits {E pass : Nat} {c : Cond} {evals : List Bool} {w : Wait} (hlen : os.length = 3)
    (hpc : w.pc = .cond) (hne : w.timeoutMs ≠ 0) (hc : c.holds g = false)
    (hover : w.forever = false → ∀ n, g.now ≤ n → n ≤ E → ¬ w.over n) (hteardown : g.teardown = false)
    (hE : g.now + lapse os ≤ E) :
    loneSteps cfg x (g, some ⟨fr, some ⟨.inTurn pass t, .wait c evals w :: rest⟩⟩) os =
      (advance (lapse os) g, some ⟨fr, some ⟨.inTurn pass t,
        .park (!w.forever) (if w.forever then 0 else w.start + w.timeoutMs) .current ::
          .wait c (false :: evals) w :: rest⟩⟩) := by
  obtain ⟨o₁, o₂, o₃, rfl⟩ := List.length_eq_three.mp hlen
  have hc₁ : c.holds (advance o₁.dt g) = false := by rwa [holds_advance]
  have h₁ : stackStep cfg x o₁ (advance o₁.dt g) (.wait c evals w :: rest) =
      (advance o₁.dt g, .frames (.wait c (false :: evals) { w with pc := .zero } :: rest)) := by
    simp [stackStep, frameStep, waitFrame, waitStep, hpc, evalCond_false hc₁, waitCond, Move.onto]
  have h₂ (g : Globals) : stackStep cfg x o₂ g
      (.wait c (false :: evals) { w with pc := .zero } :: rest) =
        (g, .frames (.wait c (false :: evals)
          { w with pc := if w.forever then .teardown else .elapsed } :: rest)) := by
    simp [stackStep, frameStep, waitFrame, waitStep, hne, Move.onto]
  have hlapse : advance o₃.dt (advance o₂.dt (advance o₁.dt g)) = advance (lapse [o₁, o₂, o₃]) g := by
    simp [advance, lapse, Nat.add_assoc]
  have h₃ : stackStep cfg x o₃ (advance (lapse [o₁, o₂, o₃]) g)
      (.wait c (false :: evals) { w with pc := if w.forever then .teardown else .elapsed } :: rest) =
        (advance (lapse [o₁, o₂, o₃]) g, .frames
          (.park (!w.forever) (if w.forever then 0 else w.start + w.timeoutMs) .current ::
            .wait c (false :: evals) w :: rest)) := by
    obtain ⟨timeoutMs, forever, start, counted, pc, asked⟩ := w
    obtain rfl : pc = .cond := hpc
    cases forever with
    | true => simp [stackStep, frameStep, waitFrame, waitStep, advance, hteardown, Move.onto]
    | false =>
      have hnot : ¬ timeoutMs ≤ ticks (advance (lapse [o₁, o₂, o₃]) g) - start :=
        hover rfl _ (Nat.le_add_right _ _) hE
      simp [stackStep, frameStep, waitFrame, waitStep, hnot, Move.onto]
  simp only [loneSteps, List.foldl_cons, List.foldl_nil]
  rw [loneStep_turn h₁, loneStep_turn (h₂ _), loneStep_turn (hlapse ▸ h₃), hlapse]

/-- A park leaves the deadline and the turn. -/
theorem turn_parks {pass : Nat} {timed : Bool} {due : UInt32} (hcur : g.cur = some t)
    (hlen : os.length = 4) :
    loneSteps cfg x (g, some ⟨fr, some ⟨.inTurn pass t, .park timed due .current :: rest⟩⟩) os =
      ({ setTask g t fun k => { k with sp := rest } with
          now := g.now + lapse os
          wakeAt := if timed && !reached due g.wakeAt then due else g.wakeAt
          cur := none },
        some ⟨fr, some ⟨.walk pass (nextTask g.taskList t), []⟩⟩) := by
  obtain ⟨o₁, os, rfl⟩ := List.exists_cons_of_length_eq_add_one hlen
  obtain ⟨o₂, o₃, o₄, rfl⟩ := List.length_eq_three.mp (Nat.succ.inj hlen)
  have h₁ : stackStep cfg x o₁ (advance o₁.dt g) (.park timed due .current :: rest) =
      (advance o₁.dt g, .frames (.park timed due (.deadline t) :: rest)) := by
    simp [stackStep, frameStep, parkStep, advance, hcur, Move.onto]
  have h₂ (g : Globals) : stackStep cfg x o₂ g (.park timed due (.deadline t) :: rest) =
      ({ g with wakeAt := if timed && !reached due g.wakeAt then due else g.wakeAt },
        .frames (.park timed due (.switch t) :: rest)) := by
    simp only [stackStep, frameStep, parkStep, Move.onto]
    split_ifs <;> rfl
  have h₃ (g : Globals) : stackStep cfg x o₃ g (.park timed due (.switch t) :: rest) =
      (g, .switch t rest) := rfl
  simp only [loneSteps, List.foldl_cons, List.foldl_nil]
  rw [loneStep_turn h₁, loneStep_turn (h₂ _), loneStep_switch (h₃ _),
    loneStep_body (fun _ _ => RunPc.noConfusion)]
  simp [bodyStep, advance, setTask, lapse, Nat.add_assoc]

/-- Parking with one more evaluation on record changes nothing else. -/
theorem kept_park {c : Cond} {evals : List Bool} {w : Wait} (hsp : (g.task t).sp = .wait c evals w :: rest)
    (evals' : List Bool) (n : Nat) (v : UInt32) (u : Option TaskId) :
    kept { setTask g t fun k => { k with sp := .wait c evals' w :: rest } with
      now := n, wakeAt := v, cur := u } = kept { g with cur := u } := by
  unfold kept
  congr 1
  funext v
  by_cases hv : v = t
  · subst hv
    simp [setTask, hsp, Frame.bare]
  · simp [setTask, Function.update_of_ne hv]

theorem kept_holds (c : Cond) (g : Globals) : c.holds (kept g) = c.holds g := by
  cases c <;> rfl

/-- What stays parked does so as long as nothing is changed. -/
theorem Stays.kept {E : Nat} (h : Stays E g t) (hk : kept g' = kept g) (hnow : g.now ≤ g'.now) :
    Stays E g' t := by
  obtain ⟨c, evals, w, rest, hsp, hpc, hne, hc, hover⟩ := h
  have hmap : (g'.task t).sp.map Frame.bare = (g.task t).sp.map Frame.bare :=
    congrArg (fun g => (g.task t).sp) hk
  rw [hsp, List.map_cons] at hmap
  obtain ⟨f, rest', hsp', hf, -⟩ := List.map_eq_cons_iff.mp hmap
  obtain ⟨evals', rfl⟩ : ∃ evals', f = .wait c evals' w := by
    cases f with
    | wait c' evals' w' =>
      obtain ⟨rfl, -, rfl⟩ := Frame.wait.inj hf
      exact ⟨evals', rfl⟩
    | _ => exact Frame.noConfusion hf
  refine ⟨c, evals', w, rest', hsp', hpc, hne, ?_, fun hforever => ?_⟩
  · rw [← kept_holds, hk, kept_holds, hc]
  · exact ⟨(hover hforever).1, fun n hn => (hover hforever).2 n (Nat.le_trans hnow hn)⟩

/-- **What an idle pass does in `dt` milliseconds.** -/
structure Idled (E dt : Nat) (g g' : Globals) : Prop where
  kept : kept g' = kept g
  now : g'.now = g.now + dt
  woken : g'.woken = g.woken
  ahead : Ahead E g.wakeAt → Ahead E g'.wakeAt

theorem Idled.trans {E m n : Nat} {g₁ g₂ g₃ : Globals} (h : Idled E m g₁ g₂) (h' : Idled E n g₂ g₃) :
    Idled E (m + n) g₁ g₃ where
  kept := h'.kept.trans h.kept
  now := by rw [h'.now, h.now, Nat.add_assoc]
  woken := h'.woken.trans h.woken
  ahead := h'.ahead ∘ h.ahead

/-- Time passes. -/
theorem Idled.advance (E dt : Nat) (g : Globals) : Idled E dt g (advance dt g) := ⟨rfl, rfl, rfl, id⟩

variable {E dt : Nat}

theorem Idled.taskList (h : Idled E dt g g') : g'.taskList = g.taskList :=
  (congrArg Globals.taskList h.kept : (Sched.kept g').taskList = (Sched.kept g).taskList)

theorem Idled.cur (h : Idled E dt g g') : g'.cur = g.cur :=
  (congrArg Globals.cur h.kept : (Sched.kept g').cur = (Sched.kept g).cur)

theorem Idled.teardown (h : Idled E dt g g') : g'.teardown = g.teardown :=
  (congrArg Globals.teardown h.kept : (Sched.kept g').teardown = (Sched.kept g).teardown)

theorem Idled.state (h : Idled E dt g g') (t : TaskId) : (g'.task t).state = (g.task t).state :=
  congrArg (fun g => (g.task t).state) h.kept

/-- **The turn of a task that stays parked.** It evaluates its condition, gives its deadline to the
scheduler and parks again. -/
theorem turn_idle {pass : Nat} (hr : (g.task t).state = .ready) (h : Stays E g t)
    (hcur : g.cur = none) (hteardown : g.teardown = false) (hlen : os.length = 10)
    (hE : g.now + lapse os ≤ E) :
    ∃ g', loneSteps cfg x (g, some ⟨fr, some ⟨.walk pass (some t), []⟩⟩) os =
        (g', some ⟨fr, some ⟨.walk pass (nextTask g.taskList t), []⟩⟩) ∧
      Idled E (lapse os) g g' := by
  obtain ⟨c, evals, w, rest, hsp, hpc, hne, hc, hover⟩ := h
  obtain ⟨l₁, l₂, l₃, rfl, h₁, h₂, h₃⟩ : ∃ l₁ l₂ l₃, os = l₁ ++ (l₂ ++ l₃) ∧ l₁.length = 3 ∧
      l₂.length = 3 ∧ l₃.length = 4 :=
    ⟨os.take 3, (os.drop 3).take 3, (os.drop 3).drop 3,
      by rw [List.take_append_drop, List.take_append_drop], by simp [hlen], by simp [hlen], by simp [hlen]⟩
  rw [lapse_append, lapse_append] at hE ⊢
  have hc' : c.holds { g with now := g.now + lapse l₁, cur := some t } = false := by
    cases c <;> exact hc
  have hE' : g.now + lapse l₁ + lapse l₂ ≤ E := by omega
  have hwaits : loneSteps cfg x ({ g with now := g.now + lapse l₁, cur := some t },
      some ⟨fr, some ⟨.inTurn pass t, .wait c evals w :: rest⟩⟩) l₂ = _ :=
    turn_waits h₂ hpc hne hc' (fun hf n hn => (hover hf).2 n (Nat.le_trans (Nat.le_add_right _ _) hn))
      hteardown hE'
  generalize hdue : (if w.forever then 0 else w.start + w.timeoutMs : UInt32) = due at hwaits
  refine ⟨{ setTask g t fun k => { k with sp := .wait c (false :: evals) w :: rest } with
      now := g.now + lapse l₁ + lapse l₂ + lapse l₃
      wakeAt := if !w.forever && !reached due g.wakeAt then due else g.wakeAt
      cur := none }, ?_, ?_, ?_, rfl, fun ha => ?_⟩
  · rw [loneSteps_append, loneSteps_append, turn_begins hr h₁, hsp, hwaits, turn_parks rfl h₃]
    rfl
  · have hg : { g with cur := none } = g := by rw [← hcur]
    exact (kept_park hsp (false :: evals) _ _ none).trans (congrArg Sched.kept hg)
  · show g.now + lapse l₁ + lapse l₂ + lapse l₃ = _
    omega
  · dsimp only
    split_ifs with hset
    · have hforever : w.forever = false := by
        simp only [Bool.and_eq_true, Bool.not_eq_true'] at hset
        exact hset.1
      rw [hforever] at hdue
      obtain ⟨hlim, hlast⟩ := hover hforever
      exact hdue ▸ Wait.ahead hlim (hlast E (by omega) (Nat.le_refl E))
    · exact ha

/-! ## The walk -/

theorem nextTask_append {l₁ l₂ : List TaskId} (h : t ∉ l₁) :
    nextTask (l₁ ++ t :: l₂) t = l₂.head? := by
  unfold nextTask
  have hdrop : (l₁ ++ t :: l₂).dropWhile (· ≠ t) = t :: l₂ := by
    rw [List.dropWhile_append_of_pos fun u hu => ?_]
    · simp
    · simp only [ne_eq, decide_eq_true_eq]
      exact fun he => h (he ▸ hu)
  rw [hdrop]
  rfl

/-- The steps of a walk over tasks that stay parked. -/
def walkSteps (g : Globals) (l : List TaskId) : Nat :=
  (l.map fun t => if (g.task t).state = .ready then 10 else 1).sum

theorem Idled.walkSteps (h : Idled E dt g g') (l : List TaskId) : walkSteps g' l = walkSteps g l := by
  simp only [Sched.walkSteps, h.state]

/-- **A walk over tasks that stay parked leaves them there.** -/
theorem walk_idle {pass : Nat} {l₁ l₂ : List TaskId} (hl : g.taskList = l₁ ++ l₂)
    (hnodup : (l₁ ++ l₂).Nodup) (hstay : ∀ t ∈ l₂, (g.task t).state = .ready → Stays E g t)
    (hcur : g.cur = none) (hteardown : g.teardown = false) (hlen : os.length = walkSteps g l₂)
    (hE : g.now + lapse os ≤ E) :
    ∃ g', loneSteps cfg x (g, some ⟨fr, some ⟨.walk pass l₂.head?, []⟩⟩) os =
        (g', some ⟨fr, some ⟨.walk pass none, []⟩⟩) ∧ Idled E (lapse os) g g' := by
  induction l₂ generalizing l₁ g os with
  | nil =>
    obtain rfl := List.eq_nil_of_length_eq_zero hlen
    exact ⟨g, rfl, .advance E 0 g⟩
  | cons t l₂ ih =>
    have ht : t ∉ l₁ := fun hm => (List.nodup_append.mp hnodup).2.2 t hm t List.mem_cons_self rfl
    -- one turn, or none where the task is dead
    have hturn : ∃ n, walkSteps g (t :: l₂) = n + walkSteps g l₂ ∧ ∀ os' : List Choice, os'.length = n →
        g.now + lapse os' ≤ E →
        ∃ g', loneSteps cfg x (g, some ⟨fr, some ⟨.walk pass (some t), []⟩⟩) os' =
          (g', some ⟨fr, some ⟨.walk pass l₂.head?, []⟩⟩) ∧ Idled E (lapse os') g g' := by
      have hnext : nextTask (l₁ ++ t :: l₂) t = l₂.head? := nextTask_append ht
      rw [← hnext, ← hl]
      by_cases hr : (g.task t).state = .ready
      · refine ⟨10, by simp [walkSteps, hr], fun os' hlen' hE' => ?_⟩
        exact turn_idle hr (hstay t List.mem_cons_self hr) hcur hteardown hlen' hE'
      · refine ⟨1, by simp [walkSteps, hr], fun os' hlen' hE' => ?_⟩
        obtain ⟨o, rfl⟩ := List.length_eq_one_iff.mp hlen'
        refine ⟨advance o.dt g, ?_, by simpa [lapse] using Idled.advance E o.dt g⟩
        simp only [loneSteps, List.foldl_cons, List.foldl_nil]
        rw [loneStep_body fun _ _ => RunPc.noConfusion]
        simp [bodyStep, advance, hr]
    obtain ⟨n, hn, hturn⟩ := hturn
    rw [hn] at hlen
    have hsplit : lapse os = lapse (os.take n) + lapse (os.drop n) := by
      rw [← lapse_append, List.take_append_drop]
    obtain ⟨g₁, hg₁, h₁⟩ := hturn (os.take n) (by simp [hlen]) (by omega)
    have hlist : g₁.taskList = (l₁ ++ [t]) ++ l₂ := by
      rw [← List.append_cons, ← hl, h₁.taskList]
    have hrest : ∀ u ∈ l₂, (g₁.task u).state = .ready → Stays E g₁ u := fun u hu hr =>
      (hstay u (List.mem_cons_of_mem t hu) (h₁.state u ▸ hr)).kept h₁.kept (h₁.now ▸ Nat.le_add_right _ _)
    obtain ⟨g₂, hg₂, h₂⟩ := ih hlist (by rwa [← List.append_cons]) hrest
      (h₁.cur.trans hcur) (h₁.teardown.trans hteardown)
      (by rw [h₁.walkSteps, List.length_drop, hlen, Nat.add_sub_cancel_left])
      (by rw [h₁.now]; omega)
    refine ⟨g₂, ?_, hsplit ▸ h₁.trans h₂⟩
    have hos : os.take n ++ os.drop n = os := List.take_append_drop n os
    rw [← hos, loneSteps_append, List.head?_cons, hg₁, hg₂]

/-! ## The run -/

/-- A deadline set less than its distance ago is ahead. -/
theorem ahead_of_lt {n E : Nat} {d : UInt32} (hle : n ≤ E) (hlt : E < n + d.toNat) (hd : d.toNat < 2 ^ 31) :
    Ahead E (tick n + d) := by
  have hsum : tick n + d = tick (n + d.toNat) := by
    rw [tick_add, show tick d.toNat = d from UInt32.ofNat_toNat]
  unfold Ahead
  rw [hsum]
  by_contra hr
  have := (reached_tick (by omega) (by omega)).mp (Bool.eq_true_of_not_eq_false hr)
  omega

/-- The entry of `mm_halow_sched_run`, where no run is in progress. -/
theorem run_enters (hrun : g.running = false) (hcur : g.cur = none) (hlen : os.length = 3) :
    loneSteps cfg x (g, some ⟨.run .check :: fr, none⟩) os =
      ({ g with
          now := g.now + lapse os
          running := true
          deadline := tick (g.now + lapse os) + cfg.budgetMs },
        some ⟨fr, some ⟨.passTest 0, []⟩⟩) := by
  obtain ⟨o₁, o₂, o₃, rfl⟩ := List.length_eq_three.mp hlen
  simp [loneSteps, loneStep, Context.step, stackStep, frameStep, runEntryStep, bodyStep, Move.onto,
    advance, ticks, hrun, hcur, lapse, Nat.add_assoc]

/-- A pass begins, where there is time. -/
theorem pass_begins {n : Nat} (hpasses : 0 < cfg.passes) (hbudget : cfg.budgetMs.toNat < 2 ^ 31)
    (hdeadline : g.deadline = tick n + cfg.budgetMs) (hn : n ≤ g.now)
    (hD : g.now + lapse os < n + cfg.budgetMs.toNat) (hlen : os.length = 3) :
    loneSteps cfg x (g, some ⟨fr, some ⟨.passTest 0, []⟩⟩) os =
      ({ g with
          now := g.now + lapse os
          woken := false
          wakeAt := int32Max + tick (g.now + lapse os)
          passAt := g.now + lapse os
          polledAt := g.now + lapse os
          passed := true },
        some ⟨fr, some ⟨.walk 0 g.taskList.head?, []⟩⟩) := by
  obtain ⟨o₁, o₂, o₃, rfl⟩ := List.length_eq_three.mp hlen
  have hlapse : lapse [o₁, o₂, o₃] = o₁.dt + (o₂.dt + o₃.dt) := by simp [lapse]
  have hexp : passExpired (advance o₁.dt g) = false := by
    have hahead : Ahead (g.now + o₁.dt) (tick n + cfg.budgetMs) :=
      ahead_of_lt (by omega) (by omega) hbudget
    unfold passExpired
    rw [show (advance o₁.dt g).deadline = tick n + cfg.budgetMs from hdeadline]
    exact (congrArg (g.running && ·) hahead).trans (Bool.and_false _)
  simp only [loneSteps, List.foldl_cons, List.foldl_nil]
  rw [loneStep_body fun _ _ => RunPc.noConfusion]
  simp only [bodyStep, hexp, hpasses, and_self, if_true]
  rw [loneStep_body fun _ _ => RunPc.noConfusion]
  simp only [bodyStep]
  rw [loneStep_body fun _ _ => RunPc.noConfusion]
  simp only [bodyStep, wakeAtReset, advance, ticks, hlapse, Nat.add_assoc]

/-- A run is over after a pass that woke nobody. -/
theorem run_leaves {pass : Nat} (hwoken : g.woken = false) (hlen : os.length = 4) :
    loneSteps cfg x (g, some ⟨fr, some ⟨.walk pass none, []⟩⟩) os =
      ({ reap g with now := g.now + lapse os, running := false }, some ⟨fr, none⟩) := by
  obtain ⟨o₁, os, rfl⟩ := List.exists_cons_of_length_eq_add_one hlen
  obtain ⟨o₂, o₃, o₄, rfl⟩ := List.length_eq_three.mp (Nat.succ.inj hlen)
  simp [loneSteps, loneStep_body, bodyStep, advance, reap, hwoken, lapse, Nat.add_assoc]

/-- The steps of a run over tasks that stay parked. -/
def idleSteps (g : Globals) : Nat := 3 + (3 + (walkSteps g g.taskList + 4))

/-- **A run over tasks that stay parked changes nothing.** -/
theorem run_idle (hrun : g.running = false) (hcur : g.cur = none) (hteardown : g.teardown = false)
    (hnodup : g.taskList.Nodup) (hpasses : 0 < cfg.passes) (hbudget : cfg.budgetMs.toNat < 2 ^ 31)
    (hlen : os.length = idleSteps g) (hD : lapse os < cfg.budgetMs.toNat)
    (hstay : ∀ t ∈ g.taskList, (g.task t).state = .ready → Stays (g.now + lapse os) g t) :
    ∃ g', loneSteps cfg x (g, some ⟨.run .check :: fr, none⟩) os = (g', some ⟨fr, none⟩) ∧
      kept g' = kept (reap g) ∧ pending g' = false := by
  obtain ⟨a, b, c, d, rfl, ha, hb, hc, hd⟩ : ∃ a b c d, os = a ++ (b ++ (c ++ d)) ∧ a.length = 3 ∧
      b.length = 3 ∧ c.length = walkSteps g g.taskList ∧ d.length = 4 :=
    ⟨os.take 3, (os.drop 3).take 3, ((os.drop 3).drop 3).take (walkSteps g g.taskList),
      ((os.drop 3).drop 3).drop (walkSteps g g.taskList), by simp only [List.take_append_drop],
      by simp [hlen, idleSteps], by simp [hlen, idleSteps], by simp [hlen, idleSteps]; omega,
      by simp [hlen, idleSteps]; omega⟩
  generalize hE : g.now + lapse (a ++ (b ++ (c ++ d))) = E at hstay
  simp only [lapse_append] at hD hE
  have hstay' : ∀ t ∈ g.taskList, (g.task t).state = .ready → Stays E { g with running := true } t := by
    intro t ht hr
    obtain ⟨c, evals, w, rest, hsp, hpc, hne, hc, hover⟩ := hstay t ht hr
    exact ⟨c, evals, w, rest, hsp, hpc, hne, by cases c <;> exact hc, hover⟩
  -- the pass has begun
  let g₂ : Globals := { g with
    now := g.now + lapse a + lapse b
    running := true
    deadline := tick (g.now + lapse a) + cfg.budgetMs
    woken := false
    wakeAt := int32Max + tick (g.now + lapse a + lapse b)
    passAt := g.now + lapse a + lapse b
    polledAt := g.now + lapse a + lapse b
    passed := true }
  have hbegins : loneSteps cfg x (g, some ⟨.run .check :: fr, none⟩) (a ++ b) =
      (g₂, some ⟨fr, some ⟨.walk 0 g.taskList.head?, []⟩⟩) := by
    rw [loneSteps_append, run_enters hrun hcur ha]
    exact pass_begins hpasses hbudget rfl (Nat.le_refl _) (by show g.now + lapse a + lapse b < _; omega) hb
  have hkept : kept g₂ = kept { g with running := true } := rfl
  have hnow : g.now ≤ g₂.now := by show g.now ≤ g.now + lapse a + lapse b; omega
  have hahead : Ahead E g₂.wakeAt := by
    have h31 : int32Max.toNat = 2 ^ 31 - 1 := rfl
    show Ahead E (int32Max + tick (g.now + lapse a + lapse b))
    rw [UInt32.add_comm]
    exact ahead_of_lt (by omega) (by omega) (by omega)
  obtain ⟨g₃, hg₃, h₃⟩ : ∃ g₃, loneSteps cfg x (g₂, some ⟨fr, some ⟨.walk 0 g.taskList.head?, []⟩⟩) c =
      (g₃, some ⟨fr, some ⟨.walk 0 none, []⟩⟩) ∧ Idled E (lapse c) g₂ g₃ :=
    walk_idle (List.nil_append g.taskList).symm hnodup
      (fun t ht hr => (hstay' t ht hr).kept hkept hnow) hcur hteardown hc
      (by show g.now + lapse a + lapse b + lapse c ≤ E; omega)
  have hnow₃ : g₃.now + lapse d = E := by
    rw [h₃.now]
    show g.now + lapse a + lapse b + lapse c + lapse d = E
    omega
  refine ⟨{ reap g₃ with now := g₃.now + lapse d, running := false }, ?_, ?_, ?_⟩
  · rw [← List.append_assoc, loneSteps_append, hbegins, loneSteps_append]
    exact (congrArg (loneSteps cfg x · d) hg₃).trans (run_leaves h₃.woken hd)
  · have hreap : kept (reap g₃) = reap (kept { g with running := true }) := by
      rw [kept_reap, h₃.kept, hkept]
    have hfalse : ({ g with running := false } : Globals) = g := by rw [← hrun]
    rw [kept_reap, ← hfalse]
    exact congrArg (fun k : Globals => { k with running := false }) hreap
  · show (g₃.woken || reached (tick (g₃.now + lapse d)) g₃.wakeAt) = false
    rw [hnow₃, h₃.woken]
    exact (Bool.false_or _).trans (h₃.ahead hahead)

/-! ## The task list -/

/-- The tasks on the list have stacks and are on it once. -/
structure Rostered (g : Globals) : Prop where
  nodup : g.taskList.Nodup
  stack : ∀ t ∈ g.taskList, (g.task t).stack = true

theorem Rostered.same (h : Rostered g) (hl : g'.taskList = g.taskList)
    (hs : ∀ t, (g'.task t).stack = (g.task t).stack) : Rostered g' where
  nodup := hl ▸ h.nodup
  stack t ht := (hs t).trans (h.stack t (hl ▸ ht))

theorem Rostered.evalCond (h : Rostered g) (c : Cond) : Rostered (evalCond cfg c g).2 := by
  cases c with
  | notified u =>
    simp only [Sched.evalCond]
    split_ifs
    · exact h.same rfl fun t => update_field Task.stack rfl
    · exact h
  | semTaken s =>
    simp only [Sched.evalCond]
    split_ifs <;> exact h.same rfl fun _ => rfl
  | queuePopped q =>
    simp only [Sched.evalCond]
    split <;> exact h.same rfl fun _ => rfl
  | queuePushed q item =>
    simp only [Sched.evalCond]
    split_ifs <;> exact h.same rfl fun _ => rfl
  | _ => exact h.same rfl fun _ => rfl

theorem freeSlot_stack (h : freeSlot cfg g = some t) : (g.task t).stack = false := by
  have := List.find?_some h
  simpa using this

theorem Rostered.microStep (h : Rostered g) (m : Micro) (todo : List Micro) (heap : Bool) :
    Rostered (microStep cfg heap m todo g).2 := by
  cases m with
  | notify u => exact h.same rfl fun t => update_field Task.stack rfl
  | markDead u => exact h.same rfl fun t => update_field Task.stack rfl
  | semGive s =>
    simp only [Sched.microStep]
    split_ifs <;> exact h.same rfl fun _ => rfl
  | queuePush q item =>
    simp only [Sched.microStep]
    split_ifs <;> exact h.same rfl fun _ => rfl
  | queuePop q =>
    simp only [Sched.microStep]
    split <;> exact h.same rfl fun _ => rfl
  | deleteSelf =>
    simp only [Sched.microStep]
    split <;> exact h
  | create =>
    simp only [Sched.microStep]
    split
    · exact h
    · next g' hc =>
      obtain ⟨u, hu, rfl⟩ := taskCreate_cases hc
      -- the slot had no stack, so it was not on the list
      have hnot : u ∉ g.taskList := fun hm =>
        Bool.noConfusion ((h.stack u hm).symm.trans (freeSlot_stack hu))
      refine ⟨List.nodup_append.mpr ⟨h.nodup, List.pairwise_singleton _ u, fun t ht v hv he => ?_⟩,
        fun t ht => ?_⟩
      · exact hnot (List.mem_singleton.mp hv ▸ he ▸ ht)
      · by_cases htu : t = u
        · simp only [htu, Function.update_self]
        · simp only [Function.update_of_ne htu]
          rcases List.mem_append.mp ht with ht | ht
          · exact h.stack t ht
          · exact absurd (List.mem_singleton.mp ht) htu
  | pending =>
    simp only [Sched.microStep]
    split_ifs <;> exact h.same rfl fun _ => rfl
  | _ => exact h.same rfl fun _ => rfl

variable {q : Option Context} {sm : StackMove} {l : List Frame}

theorem Rostered.stackStep (h : Rostered g) (hs : stackStep cfg x o g l = (g', sm)) : Rostered g' := by
  obtain rfl := congrArg Prod.fst hs
  cases l with
  | nil => exact h
  | cons f rest =>
    have hf : Touch cfg x g f (frameStep cfg x o g f).1 :=
      frameStep_touch (Prod.eta (frameStep cfg x o g f)).symm
    show Rostered (frameStep cfg x o g f).1
    generalize (frameStep cfg x o g f).1 = g' at hf
    cases hf with
    | claim =>
      unfold claim
      split_ifs <;> exact h.same rfl fun _ => rfl
    | release =>
      unfold release
      split_ifs <;> exact h.same rfl fun _ => rfl
    | cond => exact h.evalCond _
    | micro heap => exact h.microStep _ _ heap
    | _ => exact h.same rfl fun _ => rfl

theorem Rostered.reap (h : Rostered g) : Rostered (reap g) where
  nodup := h.nodup.filter _
  stack t ht := by
    obtain ⟨hm, hr⟩ := List.mem_filter.mp ht
    have hready : (g.task t).state = .ready := of_decide_eq_true hr
    simp only [Sched.reap]
    rw [if_neg fun hd => TaskState.noConfusion (hready.symm.trans hd.2)]
    exact h.stack t hm

theorem Rostered.bodyStep (h : Rostered g) (pc : RunPc) : Rostered (bodyStep cfg g pc).1 := by
  cases pc with
  | reap => exact h.reap
  | walk pass u =>
    cases u with
    | none => exact h
    | some u => exact h
  | _ => exact h.same rfl fun _ => rfl

theorem Rostered.save (h : Rostered g) (t : TaskId) (l : List Frame) :
    Rostered (setTask g t fun k => { k with sp := l }) :=
  h.same rfl fun _ => update_field Task.stack rfl

theorem Rostered.context (h : Rostered g) (hs : c.step cfg x o g = (g', q)) : Rostered g' := by
  cases Context.step_cases hs with
  | stuck => exact h
  | switch _ hst => exact (h.stackStep hst).save _ _
  | retire _ hst => exact (h.stackStep hst).save _ _
  | body => exact h.bodyStep _
  | frames _ hst => exact h.stackStep hst
  | enter _ hst => exact h.stackStep hst
  | finished _ hst => exact h.stackStep hst
  | turn _ hst => exact h.stackStep hst
  | returned _ hst => exact h.stackStep hst

variable {s u : Machine} {ev : Event}

theorem Rostered.advance (h : Rostered g) (dt : Nat) : Rostered (advance dt g) := h.same rfl fun _ => rfl

/-- **No task is on the list twice**, whatever happens. -/
theorem Rostered.step (h : Rostered s.g) (hs : Step cfg s ev u) : Rostered u.g := by
  cases hs.cases with
  | isr => exact h
  | dispatch => exact h
  | isrDone => exact h.advance _
  | isrStep => exact (h.advance _).microStep _ _ _
  | pendsv _ _ hc => exact (h.advance _).context hc
  | thread _ _ hc => exact (h.advance _).context hc

/-! ## The pass that is left out -/

/-- A task that waits on, whenever it is looked at, stays. -/
theorem stays_of_waitsOn {D : Nat} (hmax : cfg.waitMaxMs.toNat < 2 ^ 31)
    (hf : ∀ f ∈ (g.task t).sp, FrameOk cfg f) (h : ∀ dt ≤ D, WaitsOn cfg (advance dt g) t) :
    Stays (g.now + D) g t := by
  obtain ⟨c, evals, w, rest, hsp, hpc, hne, hc, -⟩ := h 0 (Nat.zero_le D)
  replace hsp : (g.task t).sp = .wait c evals w :: rest := hsp
  refine ⟨c, evals, w, rest, hsp, hpc, hne, ?_, fun hforever => ⟨?_, fun n hn hnD => ?_⟩⟩
  · rw [evalCond_result] at hc
    cases c <;> exact hc
  · rcases hf (.wait c evals w) (hsp ▸ List.mem_cons_self) with hcap | hf | hle
    · exact absurd (hpc.symm.trans hcap) WaitPc.noConfusion
    · exact Bool.noConfusion (hforever.symm.trans hf)
    · exact Nat.lt_of_le_of_lt (UInt32.le_iff_toNat_le.mp hle) hmax
  · obtain ⟨c', evals', w', rest', hsp', -, -, -, hover⟩ := h (n - g.now) (by omega)
    replace hsp' : (g.task t).sp = .wait c' evals' w' :: rest' := hsp'
    obtain ⟨-, -, rfl⟩ := Frame.wait.inj (List.cons.inj (hsp.symm.trans hsp')).1
    have hnot := hover hforever
    rwa [show (advance (n - g.now) g).now = n from Nat.add_sub_of_le hn] at hnot

/-- Nobody has a turn outside runs. -/
theorem Control.no_cur (h : Control s) (hrun : s.g.running = false) : s.g.cur = none := by
  rw [h.cur, (h.no_run hrun).1]
  rfl

variable {d e now : Nat} {mutex : Nat → Mutex} {sem : Nat → Sem} {semb : Nat → Bool}
  {queue : Nat → Queue} {tr : List Event}

/-- **The pass that is left out changes nothing**: where nothing is pending, `mm_halow_sched_run`, called by
thread context, or by PendSV while no run is in progress and no operation is in the middle of waking, comes
back after one pass that has left every task, object and flag as it was, the stacks of dead tasks
given back, and nothing is pending. Time may pass, as long as nothing comes due. -/
theorem idle_pass (hde : d + e + cfg.waitMaxMs.toNat < 2 ^ 31) (hbudget : cfg.budgetMs.toNat < 2 ^ 31)
    (hpasses : 0 < cfg.passes)
    (h : Run (fun s ev u => Step cfg s ev u ∧ Timely d e s ev)
      (boot (bootGlobals now mutex sem semb queue)) tr s)
    (hctx : s.ctx x = some ⟨.run .check :: fr, none⟩) (hisrs : s.isrs = [])
    (hthread : x = .thread → s.pendsv = none) (hirq : x = .irq → s.g.running = false ∧ s.owes = false)
    (hteardown : s.g.teardown = false) (hlen : os.length = idleSteps s.g)
    (hlapse : lapse os < cfg.budgetMs.toNat) (hrecent : s.g.now + lapse os ≤ s.g.polledAt + e)
    (hquiet : ∀ dt ≤ lapse os, pending (Sched.advance dt s.g) = false) :
    ∃ g', Run (Step cfg) s (os.map fun o => stepOf o x) (s.goes g' ⟨fr, none⟩ x) ∧
      kept g' = kept (reap s.g) ∧ pending g' = false := by
  obtain ⟨hf, hn⟩ := noted_run hde h
  have hroster : Rostered s.g :=
    h.inv (I := fun s => Rostered s.g) ⟨List.nodup_nil, fun _ ht => absurd ht List.not_mem_nil⟩
      fun _ _ _ hi hs => hi.step hs.1
  -- the machine is the context's, which is in no run and owes nothing
  obtain ⟨hgoes, hrun, howes⟩ : s = s.goes s.g ⟨.run .check :: fr, none⟩ x ∧ s.g.running = false ∧
      s.owes = false := by
    obtain ⟨g, thread, pendsv, isrs⟩ := s
    cases x with
    | thread =>
      obtain rfl : thread = ⟨.run .check :: fr, none⟩ := Option.some.inj hctx
      obtain rfl : pendsv = none := hthread rfl
      obtain rfl : isrs = [] := hisrs
      have hctl : CtxOk g none ⟨.run .check :: fr, none⟩ := hf.control
      exact ⟨rfl, hctl.running, rfl⟩
    | irq =>
      obtain rfl : pendsv = some ⟨.run .check :: fr, none⟩ := hctx
      exact ⟨rfl, hirq rfl⟩
  have hwatched : Watched cfg e s.g false none := hn.watched hf hrun howes
  have hstay : ∀ t ∈ s.g.taskList, (s.g.task t).state = .ready → Stays (s.g.now + lapse os) s.g t := by
    intro t ht hr
    refine stays_of_waitsOn (by omega) (hf.frames.saved t) fun dt hdt => ?_
    have hadv : Watched cfg e (advance dt s.g) false none :=
      hwatched.advance fun _ => Nat.le_trans (Nat.add_le_add_left hdt _) hrecent
    exact hadv.waits (hquiet dt hdt) t ht hr
  obtain ⟨g', hsteps, hkept, hpend⟩ : ∃ g', loneSteps cfg x (s.g, some ⟨.run .check :: fr, none⟩) os =
      (g', some ⟨fr, none⟩) ∧ kept g' = kept (reap s.g) ∧ pending g' = false :=
    run_idle hrun (hf.control.no_cur hrun) hteardown hroster.nodup hpasses hbudget hlen hlapse hstay
  have hsteps := loneSteps_run hisrs hthread hsteps
  rw [← hgoes] at hsteps
  exact ⟨g', hsteps, hkept, hpend⟩

/-- A task parks in a wait of 100 ms, and 50 ms later thread context calls the scheduler. -/
def parkThenRun : List Event :=
  .thread (calling (.op .taskCreate)) :: List.replicate 3 (.thread go) ++
    (.thread (calling .run) :: List.replicate 9 (.thread go)) ++
    (.thread (calling (.semWait 0 100)) :: List.replicate 14 (.thread go)) ++
    [.thread { calling .run with dt := 50 }]

/-- A pass of 5 ms. -/
def passOfFive : List Choice := { go with dt := 5 } :: List.replicate 19 go

/-- Thread context is about to make a pass over one task that is parked, and nothing is pending. -/
def beforePass (s : Machine) : Bool :=
  s.thread = ⟨[.run .check], none⟩ && s.pendsv = none && s.isrs = [] && !s.g.teardown &&
    idleSteps s.g = 20 && s.g.now + 5 ≤ s.g.polledAt + 99 &&
    (List.range 6).all fun dt => !pending (advance dt s.g)

theorem idle_pass_of_five : ∃ s g',
    Run (fun s ev u => Step .defaults s ev u ∧ Timely 0 99 s ev) bootBare parkThenRun s ∧
      Run (Step .defaults) s (passOfFive.map fun o => stepOf o .thread) (s.goes g' ⟨[], none⟩ .thread) ∧
      kept g' = kept (reap s.g) ∧ pending g' = false := by
  obtain ⟨s, hs, hp⟩ := Run.ofFold_any (p := beforePass) (fun _ _ _ => stepTimely_timely)
    (by decide +kernel : (parkThenRun.foldlM (stepTimely 0 99) bootBare).any beforePass = true)
  simp only [beforePass, Bool.and_eq_true, Bool.not_eq_true', decide_eq_true_eq, List.all_eq_true] at hp
  obtain ⟨⟨⟨⟨⟨⟨hthread, hpendsv⟩, hisrs⟩, hteardown⟩, hsteps⟩, hrecent⟩, hquiet⟩ := hp
  have hlen : passOfFive.length = idleSteps s.g := hsteps.symm
  have hlapse : lapse passOfFive = 5 := rfl
  obtain ⟨g', hrun, hkept, hpend⟩ := idle_pass (x := .thread) (by decide) (by decide) (by decide) hs
    (congrArg some hthread) hisrs (fun _ => hpendsv) nofun hteardown hlen (by decide) (hlapse ▸ hrecent)
    (fun dt hdt => hquiet dt (List.mem_range.mpr (Nat.lt_succ_of_le (hlapse ▸ hdt))))
  exact ⟨s, g', hs, hrun, hkept, hpend⟩

end MmHalow.Sched
