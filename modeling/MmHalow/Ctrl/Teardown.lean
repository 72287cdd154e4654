import MmHalow.Hal.Busy
import MmHalow.Lib.Run
import MmHalow.Osal.Timer
import MmHalow.Sched.Machine

/-!
# Polls during `mm_halow_deinit`

Once `mmwlan_deinit` has returned nothing of morselib should run. `mm_halow_deinit` then drops the
scheduler's data, the timers and the pool one store after another, and clears `initted` last, while
PendSV may dispatch `mm_halow_poll_func` between any two stores: `initted` is all that it checks. After
a fatal error or a wedged shutdown there may be tasks, timers and handlers left for it to find.

* `Serviced` is what a poll serves, `pollFunc` one poll of PendSV, which runs to completion; it gives
  the first code of morselib that the poll runs (`Ran`). What that code does is not modelled: a run
  ends there.
* `DeinitPc` is the store that thread context is about to make. Stores to what no poll reads are left
  out (`booted`, `mm_halow_poll`, the pool, `tx_buf`, the scan cache, `link_status`).
* `nothing_runs_iff`: **in a run of the rest of `mm_halow_deinit`, with polls and requests between any
  two stores, no poll runs anything of morselib exactly where every poll is spared**: it is not let
  through, or what `mmwlan_deinit` has left and no store has dropped yet gives it nothing to run.
* `task_resumed`: a run in which a poll resumes a task that `mmwlan_shutdown` has left.
-/

namespace MmHalow.Ctrl

open MmHalow.Lib MmHalow.Lib.Clock MmHalow.Osal MmHalow.Sched

/-! ## The poll -/

/-- What a poll serves; handlers are values of `H`, and `mm_halow_poll_requested` stands in `hal`. -/
structure Serviced (H : Type) where
  initted : Bool
  hal : Hal.State H
  timers : List Timer
  g : Globals

/-- What a poll meets: whether an interrupt has requested one by the time it looks, the lines it
reads, the milliseconds that pass before its tests, before `mm_halow_osal_timer_poll` and before
`mm_halow_sched_run`, and, for each pass of that, the milliseconds before it and whether an interrupt
wakes in it. -/
structure Reads where
  requested : Bool
  pendingPins : Hal.Pins
  pendingAfter : Nat
  irqPins : Hal.Pins
  timersAfter : Nat
  runAfter : Nat
  passes : List (Nat × Bool)

/-- Code of morselib. -/
inductive Ran (H : Type) where
  | handler (l : Hal.Line) (h : H)
  | timer (addr : Nat)
  | task (t : TaskId)
  deriving DecidableEq, Repr

/-- The settings that a poll depends on. -/
structure PollConfig where
  hal : Hal.Config
  sched : Sched.Config

variable {H : Type}

/-- Time passes. -/
def Serviced.after (ms : Nat) (d : Serviced H) : Serviced H :=
  { d with g := { d.g with now := d.g.now + ms } }

/-- `task->state == MM_HALOW_TASK_READY`. -/
def isReady (g : Globals) (t : TaskId) : Bool := (g.task t).state = .ready

/-- The start of a pass of `mm_halow_sched_run`. -/
def beginPass (g : Globals) : Globals := wakeAtReset { g with woken := false }

/-- The passes of `mm_halow_sched_run`, of which there may be `n` more, up to the first task resumed. -/
def runPasses : Nat → List (Nat × Bool) → Globals → Globals × Option TaskId
  | 0, _, g => (g, none)
  | n + 1, reads, g =>
    let g := { g with now := g.now + (reads.headD (0, false)).1 }
    if passExpired g then (g, none)
    else
      let g := beginPass g
      match g.taskList.find? (isReady g) with
      | some t => (g, some t)
      | none =>
        if (reads.headD (0, false)).2 then runPasses n reads.tail (wake g) else (g, none)

/-- `mm_halow_sched_run`, up to the first task resumed. -/
def schedRun (cfg : Sched.Config) (reads : List (Nat × Bool)) (g : Globals) :
    Globals × Option TaskId :=
  if g.running ∨ g.cur ≠ none then (g, none)
  else
    let r := runPasses cfg.passes reads { g with running := true, deadline := ticks g + cfg.budgetMs }
    match r.2 with
    | some t => (r.1, some t)
    | none => ({ reap r.1 with running := false }, none)

/-- The test for work in `mm_halow_poll_func`. -/
def findsWork (cfg : PollConfig) (o : Reads) (d : Serviced H) : Bool × Serviced H :=
  if d.hal.pollRequested || o.requested then (true, d)
  else
    let r := Hal.irqPending cfg.hal o.pendingPins d.hal
    (r.1 || timerPending (ticks d.g) d.timers || pending d.g, { d with hal := r.2 })

/-- The end of the full pass: `mm_halow_sched_run` and, where it resumes no task, the release. -/
def runTasks (cfg : PollConfig) (o : Reads) (d : Serviced H) : Serviced H × Option (Ran H) :=
  let r := schedRun cfg.sched o.passes d.g
  match r.2 with
  | some t => ({ d with g := r.1 }, some (.task t))
  | none => ({ d with g := release r.1 }, none)

/-- The full pass of `mm_halow_poll_func`, up to the first code of morselib. -/
def fullPass (cfg : PollConfig) (o : Reads) (d : Serviced H) : Serviced H × Option (Ran H) :=
  let d := { d with hal := { d.hal with pollRequested := false } }
  match Hal.pollIrqs cfg.hal o.irqPins d.hal with
  | (l, h) :: _ => (d, some (.handler l h))
  | [] =>
    let d := d.after o.timersAfter
    match d.timers.find? (timerDue (ticks d.g)) with
    | some t => (d, some (.timer t.addr))
    | none => runTasks cfg o (d.after o.runAfter)

/-- **`mm_halow_poll_func`** in PendSV, up to the first code of morselib that it runs. It re-arms the
pin interrupt last, which runs nothing. -/
def pollFunc (cfg : PollConfig) (o : Reads) (d : Serviced H) : Serviced H × Option (Ran H) :=
  if d.initted = false then (d, none)
  else if d.g.cur ≠ none then (d, none)
  else
    let r := claim .irq d.g
    if r.1 = false then (d, none)
    else
      let w := findsWork cfg o (Serviced.after o.pendingAfter { d with g := r.2 })
      if w.1 = false then ({ w.2 with g := release w.2.g }, none)
      else fullPass cfg o w.2

/-! ## The rest of `mm_halow_deinit` -/

/-- The store that `mm_halow_deinit` is about to make, from the return of `mmwlan_deinit` on. -/
inductive DeinitPc where
  | teardown
  -- `mm_halow_sched_deinit`
  | taskList
  | taskCur
  | running
  | owner
  | depth
  | woken
  | wakeAt
  | tasks
  -- `mm_halow_osal_deinit`
  | timerList
  | initted
  | done
  deriving DecidableEq, Repr

/-- The effect of the store. -/
def DeinitPc.store (d : Serviced H) : DeinitPc → Serviced H
  | teardown => { d with g := { d.g with teardown := false } }
  | taskList => { d with g := { d.g with taskList := [] } }
  | taskCur => { d with g := { d.g with cur := none } }
  | running => { d with g := { d.g with running := false } }
  | owner => { d with g := { d.g with owner := .none } }
  | depth => { d with g := { d.g with depth := 0 } }
  | woken => { d with g := { d.g with woken := false } }
  | wakeAt => { d with g := wakeAtReset d.g }
  | tasks => { d with g := { d.g with task := fun _ => ⟨[], false, 0, .ready⟩ } }
  | timerList => { d with timers := [] }
  | initted => { d with initted := false }
  | done => d

/-- The store that follows. -/
def DeinitPc.next : DeinitPc → DeinitPc
  | teardown => taskList
  | taskList => taskCur
  | taskCur => running
  | running => owner
  | owner => depth
  | depth => woken
  | woken => wakeAt
  | wakeAt => tasks
  | tasks => timerList
  | timerList => initted
  | initted => done
  | done => done

/-- `mm_halow_task_list` is still there. -/
def DeinitPc.keepsTasks : DeinitPc → Bool
  | teardown => true
  | taskList => true
  | _ => false

/-- `mm_halow_timer_list` is still there. -/
def DeinitPc.keepsTimers : DeinitPc → Bool
  | initted => false
  | done => false
  | _ => true

/-- `mm_halow_deinit` under way, and the first code of morselib that has run in it. -/
structure Deiniting (H : Type) where
  pc : DeinitPc
  d : Serviced H
  ran : Option (Ran H)

/-- What happens next: thread context makes its store, PendSV polls, an interrupt requests a poll, or
time passes. -/
inductive DeinitEvent where
  | store
  | poll (o : Reads)
  | request
  | pass (ms : Nat)

/-- The effect of an event; `none` once code of morselib has run. -/
def Deiniting.next (cfg : PollConfig) (s : Deiniting H) (e : DeinitEvent) : Option (Deiniting H) :=
  if s.ran.isSome then none
  else match e with
    | .store => some { s with pc := s.pc.next, d := s.pc.store s.d }
    | .poll o => some { s with d := (pollFunc cfg o s.d).1, ran := (pollFunc cfg o s.d).2 }
    | .request => some { s with d := { s.d with hal := { s.d.hal with pollRequested := true } } }
    | .pass ms => some { s with d := s.d.after ms }

/-- The step as a relation. -/
def Deiniting.Step (cfg : PollConfig) (s : Deiniting H) (e : DeinitEvent) (t : Deiniting H) : Prop :=
  s.next cfg e = some t

/-- `mmwlan_deinit` has returned, and has left `l`. -/
def Deiniting.start (l : Serviced H) : Deiniting H := ⟨.teardown, l, none⟩

/-! ## What a poll finds -/

/-- The tests for work, the claim once taken. -/
def Serviced.tests (cfg : PollConfig) (o : Reads) (d : Serviced H) : Bool × Serviced H :=
  findsWork cfg o (Serviced.after o.pendingAfter { d with g := (claim .irq d.g).2 })

/-- The poll gets past `initted`, the current task and the claim, and finds work. -/
def Serviced.letThrough (cfg : PollConfig) (o : Reads) (d : Serviced H) : Bool :=
  d.initted && d.g.cur = none && (claim .irq d.g).1 && (d.tests cfg o).1

/-- The milliseconds that have passed when the poll comes to the timers, and to the tasks. -/
def Reads.timersAt (o : Reads) (g : Globals) : Nat := g.now + o.pendingAfter + o.timersAfter
def Reads.runAt (o : Reads) (g : Globals) : Nat := o.timersAt g + o.runAfter

/-- `mm_halow_sched_run`, called at `now`, is not refused and makes a first pass in time. -/
def makesPass (cfg : Sched.Config) (reads : List (Nat × Bool)) (now : Nat) (g : Globals) : Bool :=
  !g.running && g.cur = none && 0 < cfg.passes &&
    !reached (tick (now + (reads.headD (0, false)).1)) (tick now + cfg.budgetMs)

/-- The tasks that can be resumed are the same. -/
structure SameTasks (g g' : Globals) : Prop where
  ready : ∀ t, isReady g' t = isReady g t
  list : ∀ t, isReady g t = true → (t ∈ g'.taskList ↔ t ∈ g.taskList)
  empty : g.taskList = [] → g'.taskList = []

/-- No task on the list is ready. -/
def NoneReady (g : Globals) : Prop := ∀ t ∈ g.taskList, isReady g t = false

variable {cfg : PollConfig} {o : Reads} {d d' l : Serviced H} {g g' g₁ g₂ : Globals}
  {reads : List (Nat × Bool)}

theorem SameTasks.trans (h : SameTasks g g₁) (h' : SameTasks g₁ g₂) : SameTasks g g₂ := by
  constructor
  · exact fun t => (h'.ready t).trans (h.ready t)
  · exact fun t ht => (h'.list t ((h.ready t).trans ht)).trans (h.list t ht)
  · exact h'.empty ∘ h.empty

/-- Whatever else changes. -/
theorem SameTasks.of_eq (ht : g'.task = g.task) (hl : g'.taskList = g.taskList) :
    SameTasks g g' := by
  constructor
  · intro t
    simp only [isReady, ht]
  · intro t _
    rw [hl]
  · exact hl.trans

theorem SameTasks.noneReady (h : SameTasks g g') : NoneReady g' ↔ NoneReady g := by
  constructor
  · intro hn t ht
    by_contra hr
    rw [Bool.not_eq_false] at hr
    exact absurd (hn t ((h.list t hr).mpr ht)) (by rw [h.ready t, hr]; decide)
  · intro hn t ht
    by_contra hr
    rw [Bool.not_eq_false, h.ready t] at hr
    exact absurd (hn t ((h.list t hr).mp ht)) (by rw [hr]; decide)

/-- A reap takes only dead tasks off the list. -/
theorem reap_same (g : Globals) : SameTasks g (reap g) := by
  constructor
  · intro t
    simp only [isReady, reap]
    split_ifs <;> rfl
  · intro t ht
    simp only [reap, List.mem_filter]
    exact ⟨fun h => h.1, fun h => ⟨h, ht⟩⟩
  · intro he
    simp only [reap, he, List.filter_nil]

theorem release_same (g : Globals) : SameTasks g (release g) := by
  unfold release
  split
  · exact SameTasks.of_eq rfl rfl
  · exact SameTasks.of_eq rfl rfl

theorem wake_same (g : Globals) : SameTasks g (wake g) := SameTasks.of_eq rfl rfl

theorem find_ready_none : g.taskList.find? (isReady g) = none ↔ NoneReady g := by
  rw [List.find?_eq_none]
  constructor
  · exact fun h t ht => Bool.eq_false_of_not_eq_true (h t ht)
  · exact fun h t ht => by rw [h t ht]; decide

theorem beginPass_same (ms : Nat) (g : Globals) :
    SameTasks g (beginPass { g with now := g.now + ms }) := SameTasks.of_eq rfl rfl

/-- A pass that resumes nobody goes on with the next one, or not. -/
theorem runPasses_succ (n : Nat) (reads : List (Nat × Bool)) (g : Globals) :
    runPasses (n + 1) reads g =
      let g' := { g with now := g.now + (reads.headD (0, false)).1 }
      if passExpired g' then (g', none)
      else match g.taskList.find? (isReady g) with
        | some t => (beginPass g', some t)
        | none =>
          if (reads.headD (0, false)).2 then runPasses n reads.tail (wake (beginPass g'))
          else (beginPass g', none) := rfl

/-- The first pass in time resumes the first ready task; no pass finds one that it does not. -/
theorem runPasses_none_iff (n : Nat) (reads : List (Nat × Bool)) (g : Globals) :
    (runPasses n reads g).2 = none ↔
      (0 < n → passExpired { g with now := g.now + (reads.headD (0, false)).1 } = false →
        NoneReady g) := by
  induction n generalizing reads g with
  | zero => exact ⟨fun _ h => absurd h (Nat.lt_irrefl 0), fun _ => rfl⟩
  | succ n ih =>
    rw [runPasses_succ]
    simp only
    split
    next hx => exact ⟨fun _ _ h => absurd (hx.symm.trans h) (by decide), fun _ => rfl⟩
    next hx =>
      rw [Bool.not_eq_true] at hx
      split
      next t ht =>
        constructor
        · exact fun h => absurd h (Option.some_ne_none t)
        · intro h
          exact absurd (ht.symm.trans (find_ready_none.mpr (h (Nat.succ_pos n) hx)))
            (Option.some_ne_none t)
      next ht =>
        have hn := find_ready_none.mp ht
        refine ⟨fun _ _ _ => hn, fun _ => ?_⟩
        split
        · exact (ih _ _).mpr fun _ _ =>
            (((beginPass_same _ g).trans (wake_same _)).noneReady).mpr hn
        · rfl

/-- Passes that resume nobody leave the tasks alone. -/
theorem runPasses_same (n : Nat) (h : (runPasses n reads g).2 = none) :
    SameTasks g (runPasses n reads g).1 := by
  induction n generalizing reads g with
  | zero => exact SameTasks.of_eq rfl rfl
  | succ n ih =>
    rw [runPasses_succ] at h ⊢
    simp only at h ⊢
    split at h
    next hx =>
      rw [if_pos hx]
      exact SameTasks.of_eq rfl rfl
    next hx =>
      rw [if_neg hx]
      split at h
      next t _ => exact absurd h (Option.some_ne_none t)
      next ht =>
        split at h
        next hw =>
          rw [if_pos hw]
          exact ((beginPass_same _ g).trans (wake_same _)).trans (ih h)
        next hw =>
          rw [if_neg hw]
          exact beginPass_same _ g

/-- What `mm_halow_sched_run` does before its first pass. -/
theorem startRun_same (c : Sched.Config) (g : Globals) :
    SameTasks g { g with running := true, deadline := ticks g + c.budgetMs } :=
  SameTasks.of_eq rfl rfl

/-- **What `mm_halow_sched_run` finds**: a ready task, where it makes a pass. -/
theorem schedRun_none_iff (c : Sched.Config) :
    (schedRun c reads g).2 = none ↔ (makesPass c reads g.now g = true → NoneReady g) := by
  unfold schedRun makesPass
  split
  next h =>
    refine ⟨fun _ hp => ?_, fun _ => rfl⟩
    simp only [Bool.and_eq_true, Bool.not_eq_true', decide_eq_true_eq] at hp
    rcases h with h | h
    · exact absurd (h.symm.trans hp.1.1.1) (by decide)
    · exact absurd hp.1.1.2 h
  next h =>
    obtain ⟨hr, hc⟩ := not_or.mp h
    rw [Bool.not_eq_true] at hr
    have hpasses := runPasses_none_iff c.passes reads
      { g with running := true, deadline := ticks g + c.budgetMs }
    rw [(startRun_same c g).noneReady] at hpasses
    have hfirst : (!g.running && decide (g.cur = none) && decide (0 < c.passes) &&
        !reached (tick (g.now + (reads.headD (0, false)).1)) (tick g.now + c.budgetMs)) = true ↔
        0 < c.passes ∧ passExpired { g with
          now := g.now + (reads.headD (0, false)).1
          running := true
          deadline := ticks g + c.budgetMs } = false := by
      rw [hr, not_not.mp hc]
      simp [passExpired, ticks]
    rw [hfirst, and_imp, ← hpasses]
    simp only
    split
    next t ht =>
      constructor
      · exact fun h => absurd h (Option.some_ne_none t)
      · exact fun h => absurd (ht.symm.trans h) (Option.some_ne_none t)
    next ht => exact ⟨fun _ => ht, fun _ => rfl⟩

theorem schedRun_same (c : Sched.Config) (h : (schedRun c reads g).2 = none) :
    SameTasks g (schedRun c reads g).1 := by
  unfold schedRun at h ⊢
  split at h
  next hx =>
    rw [if_pos hx]
    exact SameTasks.of_eq rfl rfl
  next hx =>
    rw [if_neg hx]
    simp only at h ⊢
    split at h
    next t _ => exact absurd h (Option.some_ne_none t)
    next ht =>
      exact (((startRun_same c g).trans (runPasses_same _ ht)).trans (reap_same _)).trans
        (SameTasks.of_eq rfl rfl)

/-- The handlers, the timers and the tasks are the same. -/
structure SameWork (cfg : PollConfig) (d d' : Serviced H) : Prop where
  irqs : ∀ pins, Hal.pollIrqs cfg.hal pins d'.hal = Hal.pollIrqs cfg.hal pins d.hal
  timers : d'.timers = d.timers
  tasks : SameTasks d.g d'.g

variable {d₁ d₂ : Serviced H}

theorem SameWork.of_same (h : SameTasks g g') : SameWork cfg { d with g := g } { d with g := g' } :=
  ⟨fun _ => rfl, rfl, h⟩

theorem SameWork.refl (cfg : PollConfig) (d : Serviced H) : SameWork cfg d d :=
  SameWork.of_same (SameTasks.of_eq rfl rfl)

theorem SameWork.trans (h : SameWork cfg d d₁) (h' : SameWork cfg d₁ d₂) : SameWork cfg d d₂ := by
  constructor
  · exact fun pins => (h'.irqs pins).trans (h.irqs pins)
  · exact h'.timers.trans h.timers
  · exact h.tasks.trans h'.tasks

/-- The flag of a request is none of the three. -/
theorem SameWork.request (cfg : PollConfig) (b : Bool) (d : Serviced H) :
    SameWork cfg d { d with hal := { d.hal with pollRequested := b } } :=
  ⟨fun _ => rfl, rfl, SameTasks.of_eq rfl rfl⟩

theorem SameWork.after (ms : Nat) (d : Serviced H) : SameWork cfg d (d.after ms) :=
  SameWork.of_same (SameTasks.of_eq rfl rfl)

theorem SameWork.claimed (d : Serviced H) : SameWork cfg d { d with g := (claim .irq d.g).2 } := by
  refine SameWork.of_same ?_
  unfold claim
  split
  · exact SameTasks.of_eq rfl rfl
  · exact SameTasks.of_eq rfl rfl

/-- The tests for work take a sample of BUSY. -/
theorem findsWork_kept (cfg : PollConfig) (o : Reads) (d : Serviced H) :
    SameWork cfg d (findsWork cfg o d).2 ∧ (findsWork cfg o d).2.g = d.g := by
  unfold findsWork
  split
  · exact ⟨SameWork.refl cfg d, rfl⟩
  · exact ⟨⟨fun _ => rfl, rfl, SameTasks.of_eq rfl rfl⟩, rfl⟩

theorem tests_kept (cfg : PollConfig) (o : Reads) (d : Serviced H) : SameWork cfg d (d.tests cfg o).2 :=
  ((SameWork.claimed d).trans (SameWork.after o.pendingAfter _)).trans (findsWork_kept cfg o _).1

theorem runTasks_none_iff : (runTasks cfg o d).2 = none ↔
    (makesPass cfg.sched o.passes d.g.now d.g = true → NoneReady d.g) := by
  rw [← schedRun_none_iff]
  unfold runTasks
  simp only
  split
  next t ht =>
    constructor
    · exact fun h => absurd h (Option.some_ne_none _)
    · exact fun h => absurd (ht.symm.trans h) (Option.some_ne_none t)
  next ht => exact ⟨fun _ => ht, fun _ => rfl⟩

theorem runTasks_kept (h : (runTasks cfg o d).2 = none) : SameWork cfg d (runTasks cfg o d).1 := by
  unfold runTasks at h ⊢
  simp only at h ⊢
  split at h
  next => exact absurd h (Option.some_ne_none _)
  next ht => exact SameWork.of_same ((schedRun_same cfg.sched ht).trans (release_same _))

theorem find_due_none (now : UInt32) (timers : List Timer) :
    timers.find? (timerDue now) = none ↔ timerPending now timers = false := by
  rw [timerPending, List.find?_eq_none, List.any_eq_false]

/-- What the poll runs, where it makes a full pass at `d`. -/
theorem fullPass_none_iff : (fullPass cfg o d).2 = none ↔
    Hal.pollIrqs cfg.hal o.irqPins d.hal = [] ∧
      timerPending (tick (d.g.now + o.timersAfter)) d.timers = false ∧
      (makesPass cfg.sched o.passes (d.g.now + o.timersAfter + o.runAfter) d.g = true →
        NoneReady d.g) := by
  have htimers := find_due_none (tick (d.g.now + o.timersAfter)) d.timers
  unfold fullPass
  simp only
  split
  next _ _ _ hirqs =>
    constructor
    · exact fun h => absurd h (Option.some_ne_none _)
    · exact fun h => absurd (hirqs.symm.trans h.1) (List.cons_ne_nil _ _)
  next hirqs =>
    split
    next t ht =>
      constructor
      · exact fun h => absurd h (Option.some_ne_none _)
      · exact fun h => absurd (ht.symm.trans (htimers.mpr h.2.1)) (Option.some_ne_none t)
    next ht =>
      rw [runTasks_none_iff]
      constructor
      · exact fun h => ⟨hirqs, htimers.mp ht, h⟩
      · exact fun h => h.2.2

theorem fullPass_kept (h : (fullPass cfg o d).2 = none) : SameWork cfg d (fullPass cfg o d).1 := by
  unfold fullPass at h ⊢
  simp only at h ⊢
  split at h
  next => exact absurd h (Option.some_ne_none _)
  next =>
    split at h
    next => exact absurd h (Option.some_ne_none _)
    next =>
      have hwait := ((SameWork.request cfg false d).trans (SameWork.after o.timersAfter _)).trans
        (SameWork.after o.runAfter _)
      exact hwait.trans (runTasks_kept h)

/-- The poll as `mm_halow_poll_func` goes: turned away, nothing to do, or a full pass. -/
theorem pollFunc_cases (cfg : PollConfig) (o : Reads) (d : Serviced H) :
    d.letThrough cfg o = false ∧ (pollFunc cfg o d).2 = none ∧ SameWork cfg d (pollFunc cfg o d).1 ∨
      d.letThrough cfg o = true ∧ pollFunc cfg o d = fullPass cfg o (d.tests cfg o).2 := by
  by_cases hi : d.initted = false
  · simp [pollFunc, Serviced.letThrough, hi, SameWork.refl]
  by_cases hc : d.g.cur ≠ none
  · simp [pollFunc, Serviced.letThrough, hi, hc, SameWork.refl]
  by_cases hg : (claim .irq d.g).1 = false
  · simp [pollFunc, Serviced.letThrough, hi, hc, hg, SameWork.refl]
  have hpoll : pollFunc cfg o d = if (d.tests cfg o).1 = false
      then ({ (d.tests cfg o).2 with g := release (d.tests cfg o).2.g }, none)
      else fullPass cfg o (d.tests cfg o).2 := by
    unfold pollFunc
    rw [if_neg hi, if_neg hc]
    exact if_neg hg
  have hlet : d.letThrough cfg o = (d.tests cfg o).1 := by
    rw [Bool.not_eq_false] at hi hg
    rw [Serviced.letThrough, hi, not_not.mp hc, hg]
    rfl
  rw [hpoll, hlet]
  by_cases hf : (d.tests cfg o).1 = false
  · rw [if_pos hf]
    exact .inl ⟨hf, rfl, (tests_kept cfg o d).trans (SameWork.of_same (release_same _))⟩
  · rw [if_neg hf]
    exact .inr ⟨eq_true_of_ne_false hf, rfl⟩

/-- A poll that runs nothing keeps what there is to run. -/
theorem pollFunc_kept (h : (pollFunc cfg o d).2 = none) : SameWork cfg d (pollFunc cfg o d).1 := by
  rcases pollFunc_cases cfg o d with ⟨-, -, hk⟩ | ⟨-, hp⟩
  · exact hk
  · rw [hp] at h ⊢
    exact (tests_kept cfg o d).trans (fullPass_kept h)

/-- The tests read the clock and keep what `mm_halow_sched_run` looks at. -/
theorem tests_makesPass (cfg : PollConfig) (o : Reads) (d : Serviced H) :
    (d.tests cfg o).2.g.now = d.g.now + o.pendingAfter ∧
      ∀ now, makesPass cfg.sched o.passes now (d.tests cfg o).2.g =
        makesPass cfg.sched o.passes now d.g := by
  rw [Serviced.tests, (findsWork_kept cfg o _).2]
  have hclaim : (claim .irq d.g).2.now = d.g.now ∧ (claim .irq d.g).2.running = d.g.running ∧
      (claim .irq d.g).2.cur = d.g.cur := by
    unfold claim
    split
    · exact ⟨rfl, rfl, rfl⟩
    · exact ⟨rfl, rfl, rfl⟩
  constructor
  · exact congrArg (· + o.pendingAfter) hclaim.1
  · intro now
    simp only [makesPass, Serviced.after, hclaim.2.1, hclaim.2.2]

/-- **What a poll runs**: nothing, where it is turned away, finds nothing to do, or makes a full pass
that finds no handler to call, no timer due and no ready task. -/
theorem pollFunc_none_iff : (pollFunc cfg o d).2 = none ↔ (d.letThrough cfg o = true →
    Hal.pollIrqs cfg.hal o.irqPins d.hal = [] ∧
      timerPending (tick (o.timersAt d.g)) d.timers = false ∧
      (makesPass cfg.sched o.passes (o.runAt d.g) d.g = true → NoneReady d.g)) := by
  rcases pollFunc_cases cfg o d with ⟨hl, hn, -⟩ | ⟨hl, hp⟩
  · exact ⟨fun _ h => absurd (hl.symm.trans h) (by decide), fun _ => hn⟩
  · have hk := tests_kept cfg o d
    obtain ⟨hnow, hpass⟩ := tests_makesPass cfg o d
    rw [hp, fullPass_none_iff, hk.irqs, hk.timers, hk.tasks.noneReady, hnow, hpass]
    exact ⟨fun h _ => h, fun h => h hl⟩

/-! ## What `mmwlan_deinit` has left -/

/-- Of the handlers, timers and tasks that `mmwlan_deinit` has left, `s` has what no store has
dropped. -/
structure Remains (cfg : PollConfig) (l : Serviced H) (s : Deiniting H) : Prop where
  irqs : ∀ pins, Hal.pollIrqs cfg.hal pins s.d.hal = Hal.pollIrqs cfg.hal pins l.hal
  timers : s.d.timers = if s.pc.keepsTimers then l.timers else []
  kept : s.pc.keepsTasks = true → SameTasks l.g s.d.g
  dropped : s.pc.keepsTasks = false → s.d.g.taskList = []

/-- The poll is not let through, or finds nothing to run of what there is left at the store: no
handler to call, no timer due, and no ready task where it comes to a pass. -/
def Spared (cfg : PollConfig) (l : Serviced H) (o : Reads) (s : Deiniting H) : Prop :=
  s.d.letThrough cfg o = true →
    Hal.pollIrqs cfg.hal o.irqPins l.hal = [] ∧
      (s.pc.keepsTimers = true → timerPending (tick (o.timersAt s.d.g)) l.timers = false) ∧
      (s.pc.keepsTasks = true → makesPass cfg.sched o.passes (o.runAt s.d.g) s.d.g = true →
        NoneReady l.g)

variable {s t : Deiniting H} {e : DeinitEvent} {tr : List DeinitEvent}

theorem Remains.start (cfg : PollConfig) (l : Serviced H) : Remains cfg l (Deiniting.start l) :=
  ⟨fun _ => rfl, rfl, fun _ => SameTasks.of_eq rfl rfl, fun h => absurd h.symm Bool.false_ne_true⟩

/-- What keeps the three keeps what remains. -/
theorem Remains.of_kept (hr : Remains cfg l s) (hpc : t.pc = s.pc) (hk : SameWork cfg s.d t.d) :
    Remains cfg l t := by
  constructor
  · exact fun pins => (hk.irqs pins).trans (hr.irqs pins)
  · rw [hk.timers, hpc]
    exact hr.timers
  · rw [hpc]
    exact fun h => (hr.kept h).trans hk.tasks
  · rw [hpc]
    exact fun h => hk.tasks.empty (hr.dropped h)

/-- Each store drops what it drops, and keeps the rest. -/
theorem Remains.store (hr : Remains cfg l s) :
    Remains cfg l { s with pc := s.pc.next, d := s.pc.store s.d } := by
  obtain ⟨pc, d, ran⟩ := s
  obtain ⟨hirqs, htimers, hkept, hdropped⟩ := hr
  cases pc with
  | teardown => exact ⟨hirqs, htimers, fun _ => (hkept rfl).trans (SameTasks.of_eq rfl rfl), nofun⟩
  | taskList => exact ⟨hirqs, htimers, nofun, fun _ => rfl⟩
  | timerList => exact ⟨hirqs, rfl, nofun, hdropped⟩
  | _ => exact ⟨hirqs, htimers, nofun, hdropped⟩

/-- **A poll runs nothing exactly where it is spared.** -/
theorem Remains.poll (hr : Remains cfg l s) : (pollFunc cfg o s.d).2 = none ↔ Spared cfg l o s := by
  rw [pollFunc_none_iff, Spared, hr.irqs, hr.timers]
  refine imp_congr_right fun _ => and_congr_right fun _ => and_congr ?_ ?_
  · split
    next h => exact ⟨fun ht _ => ht, fun ht => ht h⟩
    next h => exact ⟨fun _ h' => absurd h' h, fun _ => rfl⟩
  · by_cases h : s.pc.keepsTasks = true
    · rw [(hr.kept h).noneReady]
      exact ⟨fun ht _ => ht, fun ht => ht h⟩
    · refine ⟨fun _ h' => absurd h' h, fun _ _ t ht => ?_⟩
      rw [hr.dropped (Bool.eq_false_of_not_eq_true h)] at ht
      exact absurd ht List.not_mem_nil

/-! ## Runs -/

/-- Only a state in which nothing has run has a next one. -/
theorem Deiniting.Step.quiet (h : Deiniting.Step cfg s e t) : s.ran = none := by
  by_contra hran
  unfold Deiniting.Step Deiniting.next at h
  rw [if_pos (Option.isSome_iff_ne_none.mpr hran)] at h
  exact absurd h (Option.some_ne_none t).symm

/-- **What an event does** to the rest of `mm_halow_deinit`. -/
theorem Deiniting.Step.cases (h : Deiniting.Step cfg s e t) :
    (e = .store ∧ t = { s with pc := s.pc.next, d := s.pc.store s.d }) ∨
    (∃ o, e = .poll o ∧
      t = { s with d := (pollFunc cfg o s.d).1, ran := (pollFunc cfg o s.d).2 }) ∨
    (e = .request ∧ t = { s with d := { s.d with hal := { s.d.hal with pollRequested := true } } }) ∨
    (∃ ms, e = .pass ms ∧ t = { s with d := s.d.after ms }) := by
  have hran : ¬ s.ran.isSome = true := by
    rw [h.quiet]
    exact Bool.false_ne_true
  unfold Deiniting.Step Deiniting.next at h
  rw [if_neg hran] at h
  cases e with
  | store => exact .inl ⟨rfl, (Option.some.inj h).symm⟩
  | poll o => exact .inr (.inl ⟨o, rfl, (Option.some.inj h).symm⟩)
  | request => exact .inr (.inr (.inl ⟨rfl, (Option.some.inj h).symm⟩))
  | pass ms => exact .inr (.inr (.inr ⟨ms, rfl, (Option.some.inj h).symm⟩))

/-- Where nothing has run at the end of a run, nothing had before. -/
theorem quiet_before (h : Run (Deiniting.Step cfg) s tr t) (ht : t.ran = none) : s.ran = none := by
  induction h with
  | nil => exact ht
  | snoc _ hs ih => exact ih hs.quiet

/-- **As long as nothing has run, what the stores have not dropped remains.** -/
theorem Remains.run (h : Run (Deiniting.Step cfg) (.start l) tr s) (hs : s.ran = none) :
    Remains cfg l s := by
  induction h with
  | nil => exact Remains.start cfg l
  | @snoc tr t u e hr hstep ih =>
    have hi := ih hstep.quiet
    rcases hstep.cases with ⟨-, rfl⟩ | ⟨o, -, rfl⟩ | ⟨-, rfl⟩ | ⟨ms, -, rfl⟩
    · exact hi.store
    · exact hi.of_kept rfl (pollFunc_kept hs)
    · exact hi.of_kept rfl (SameWork.request cfg true t.d)
    · exact hi.of_kept rfl (SameWork.after ms t.d)

/-- **Nothing of morselib runs in the rest of `mm_halow_deinit` exactly where every poll is spared.** -/
theorem nothing_runs_iff (h : Run (Deiniting.Step cfg) (.start l) tr s) :
    s.ran = none ↔ ∀ tr₁ o t, tr₁ ++ [.poll o] <+: tr →
      Run (Deiniting.Step cfg) (.start l) tr₁ t → Spared cfg l o t := by
  constructor
  · rintro hs tr₁ o t ⟨tr₂, rfl⟩ ht
    obtain ⟨u, hu, hrest⟩ := h.split
    obtain ⟨t', ht', hpoll⟩ := hu.split
    obtain rfl := Run.det (fun _ _ _ _ ha hb => Option.some.inj (ha.symm.trans hb)) ht' ht
    obtain ⟨u', hstep, hu'⟩ := hpoll.uncons
    obtain rfl := hu'.of_nil
    have hq := quiet_before hrest hs
    refine (Remains.run ht hstep.quiet).poll.mp ?_
    rcases hstep.cases with ⟨he, -⟩ | ⟨o', he, rfl⟩ | ⟨he, -⟩ | ⟨_, he, -⟩
    · exact nomatch he
    · obtain rfl := DeinitEvent.poll.inj he
      exact hq
    · exact nomatch he
    · exact nomatch he
  · intro hspared
    cases h with
    | nil => rfl
    | @snoc tr t _ e hr hstep =>
      have hq := hstep.quiet
      rcases hstep.cases with ⟨-, rfl⟩ | ⟨o, rfl, rfl⟩ | ⟨-, rfl⟩ | ⟨_, -, rfl⟩
      · exact hq
      · exact (Remains.run hr hq).poll.mpr (hspared tr o t (List.prefix_refl _) hr)
      · exact hq
      · exact hq

/-- The defaults of a build. -/
def defaultPolls : PollConfig := ⟨⟨false⟩, .defaults⟩

/-- What a wedged `mmwlan_shutdown` may leave: a task that is not dead. -/
def leftTask : Serviced Unit where
  initted := true
  hal := Hal.State.init
  timers := []
  g := { bootBare.g with task := fun _ => ⟨[], true, 0, .ready⟩, taskList := [0] }

/-- A poll that was requested, in no time. -/
def requestedPoll : Reads := ⟨true, ⟨0, 1⟩, 0, ⟨0, 1⟩, 0, 0, []⟩

/-- The poll comes once the task list has been dropped. -/
def polledLate : List DeinitEvent := [.store, .store, .poll requestedPoll]

/-- It finds no task then. -/
theorem nothing_runs_late : ∃ s,
    Run (Deiniting.Step defaultPolls) (.start leftTask) polledLate s ∧
    ∀ tr₁ o t, tr₁ ++ [.poll o] <+: polledLate →
      Run (Deiniting.Step defaultPolls) (.start leftTask) tr₁ t →
      Spared defaultPolls leftTask o t := by
  obtain ⟨s, hs, hran⟩ : ∃ s, Run (Deiniting.Step defaultPolls) (.start leftTask) polledLate s ∧
      s.ran.isNone = true := Run.ofFold_any (fun _ _ _ h => h) (by decide)
  exact ⟨s, hs, (nothing_runs_iff hs).mp (Option.isNone_iff_eq_none.mp hran)⟩

/-- **A poll resumes the task that is left**, `mmwlan_deinit` having returned. -/
theorem task_resumed : ¬ ∀ (cfg : PollConfig) (l : Serviced Unit) (tr : List DeinitEvent)
    (s : Deiniting Unit), Run (Deiniting.Step cfg) (.start l) tr s → s.ran = none := by
  intro h
  obtain ⟨s, hs, hran⟩ : ∃ s, Run (Deiniting.Step defaultPolls) (.start leftTask)
      [.poll requestedPoll] s ∧ decide (s.ran = some (.task 0)) = true :=
    Run.ofFold_any (fun _ _ _ h => h) (by decide)
  exact absurd ((of_decide_eq_true hran).symm.trans (h _ _ _ s hs)) (Option.some_ne_none _)

end MmHalow.Ctrl
