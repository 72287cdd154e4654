import MmHalow.Lib.Run
import MmHalow.Sched.State

/-!
# The scheduler as a machine

Thread context and PendSV each execute a stack of frames, top first; PendSV cuts in between any two
steps of the thread and runs to completion. Other interrupts cut in anywhere and make one
operation. `mm_halow_sched_run` is the `body` of a context: it walks the task list, and while a
task has its turn the frames of that task are the ones that execute.

Code of the host, of a task or of a callback may make any call (`Call`) at any point; which it
makes, what `mm_halow_initted`, the interrupt lines, the timers and the heap answer, and how much
time passes before a step, is in the `Choice` of the step.

| source                                | here                               |
|---------------------------------------|------------------------------------|
| `mm_halow_poll_func`                  | `pollStep`                         |
| `mm_halow_sched_yield`                | `yieldStep`                        |
| `mm_halow_sched_park`                 | `parkStep`                         |
| `mm_halow_sched_wait`                 | `waitStep`, through `waitFrame`    |
| `mmosal_mutex_get`                    | `mutexGetStep`                     |
| `mmosal_task_wait_for_notification`   | `notifyWaitStep`                   |
| `mm_halow_sched_run`                  | `runEntryStep`, then `bodyStep`    |
| `mm_halow_context_switch`             | `Move.switch`, `RunPc.resume`      |
| `mm_halow_task_trampoline`            | `Context.step`, an empty task stack|

A context switch is saved to the task that `mm_halow_task_cur` names. Where the context that makes
it is not the one that runs this task, the switch would leave through a stack that is not its own;
nothing is defined after it, and the machine stays where it is (`Context.step`).
-/

namespace MmHalow.Sched

open MmHalow.Lib MmHalow.Lib.Clock MmHalow.Osal

/-- A call that code can make. -/
inductive Call where
  | poll
  | yield
  | run
  | region
  | notifyWait (timeoutMs : UInt32)
  | mutexGet (m : Nat) (timeoutMs : UInt32)
  | semWait (s : Nat) (timeoutMs : UInt32)
  | sembWait (s : Nat) (timeoutMs : UInt32)
  | queuePop (q : Nat) (timeoutMs : UInt32)
  | queuePush (q : Nat) (item : List UInt8) (timeoutMs : UInt32)
  | join (t : TaskId)
  | op (o : Op)
  deriving Repr, DecidableEq

/-- The frame of a wait on `c`. -/
def waitOn (c : Cond) (timeoutMs : UInt32) : Frame := .wait c [] (waitCall timeoutMs)

/-- The frame a call begins with. -/
def Call.frame : Call → Frame
  | .poll => .poll .initted
  | .yield => .yield .current
  | .run => .run .check
  | .region => .region .claim
  | .notifyWait timeoutMs => .notifyWait timeoutMs
  | .mutexGet m timeoutMs => .mutexGet m timeoutMs .enter
  | .semWait s timeoutMs => waitOn (.semTaken s) timeoutMs
  | .sembWait s timeoutMs => waitOn (.sembTaken s) timeoutMs
  | .queuePop q timeoutMs => waitOn (.queuePopped q) timeoutMs
  | .queuePush q item timeoutMs => waitOn (.queuePushed q item) timeoutMs
  | .join t => waitOn (.isDead t) waitForever
  | .op o => .op o.micros

/-- What a step meets: the milliseconds that pass before it, the call that code makes (or that it
is done), and the answers from outside. -/
structure Choice where
  dt : Nat
  call : Option Call
  initted : Bool
  irqPending : Bool
  timerPending : Bool
  heap : Bool
  deriving Repr, DecidableEq

/-- What becomes of the top frame. -/
inductive Move where
  /-- It goes on as this frame. -/
  | goto (f : Frame)
  /-- It goes on as the first frame, after a call of the second. -/
  | call (f callee : Frame)
  /-- It returns a result. -/
  | ret (r : Bool)
  /-- It returns, and leaves to the scheduler, saved to the task. -/
  | switch (t : TaskId)
  /-- It leaves to the scheduler from a task that is over. -/
  | retire (t : TaskId)
  /-- It is `mm_halow_sched_run`, which begins its passes. -/
  | enter
  deriving Repr, DecidableEq

/-- Code: the call it makes, or where it goes when it is done. -/
def codeStep (o : Choice) (here : Frame) (fin : Move) : Move :=
  match o.call with
  | some c => .call here c.frame
  | none => fin

/-- `mm_halow_poll_func`. -/
def pollStep (x : Ctx) (o : Choice) (g : Globals) : PollPc → Globals × Move
  | .initted => (g, if o.initted then .goto (.poll .current) else .ret true)
  | .current => (g, if g.cur = none then .goto (.poll .claim) else .ret true)
  | .claim =>
    let r := claim x g
    (r.2, .goto (.poll (if r.1 then .requested else .refused)))
  | .refused => (g, .ret true)
  | .requested => (g, .goto (.poll (if g.pollRequested then .request else .irqPending)))
  | .irqPending => (g, .goto (.poll (if o.irqPending then .request else .timerPending)))
  | .timerPending => (g, .goto (.poll (if o.timerPending then .request else .schedPending)))
  | .schedPending =>
    if pending g then (g, .goto (.poll .request))
    else ({ g with polledAt := g.now }, .goto (.poll .quietRelease))
  | .quietRelease => (release g, .goto (.poll .rearm))
  | .request => ({ g with pollRequested := false }, .goto (.poll .irqs))
  | .irqs => (g, codeStep o (.poll .irqs) (.goto (.poll .timers)))
  | .timers => (g, codeStep o (.poll .timers) (.goto (.poll .run)))
  | .run => (g, .call (.poll .inRun) (.run .check))
  | .inRun => (g, .goto (.poll .release))
  | .release => (release g, .goto (.poll .rearm))
  | .rearm => (g, .ret true)

/-- `mm_halow_sched_yield`; `hook` is `MM_HALOW_EVENT_POLL_HOOK`, which is not run in an
interrupt. -/
def yieldStep (x : Ctx) (o : Choice) (g : Globals) : YieldPc → Globals × Move
  | .current =>
    (g, .goto (.yield (match g.cur with
      | some t => .woken t
      | none => .claim)))
  | .woken t => (wake g, .goto (.yield (.switch t)))
  | .switch t => (g, .switch t)
  | .claim =>
    let r := claim x g
    (r.2, .goto (.yield (if r.1 then .run else .hook)))
  | .run => (g, .call (.yield .inRun) (.run .check))
  | .inRun => (g, .goto (.yield .release))
  | .release => (release g, .goto (.yield .hook))
  | .hook => (g, if x = .irq then .ret true else codeStep o (.yield .hook) (.ret true))

/-- `mm_halow_sched_park`. -/
def parkStep (g : Globals) (timed : Bool) (wakeAt : UInt32) : ParkPc → Globals × Move
  | .current =>
    (g, .goto (match g.cur with
      | some t => .park timed wakeAt (.deadline t)
      | none => .yield .current))
  | .deadline t =>
    (if timed && !reached wakeAt g.wakeAt then { g with wakeAt := wakeAt } else g,
      .goto (.park timed wakeAt (.switch t)))
  | .switch t => (g, .switch t)

/-- The entry of `mm_halow_sched_run`. -/
def runEntryStep (g : Globals) : RunEntryPc → Globals × Move
  | .check => (g, if g.running ∨ g.cur ≠ none then .ret true else .goto (.run .set))
  | .set => ({ g with running := true }, .enter)

/-- `mm_halow_sched_wait` on the condition `c`. -/
def waitFrame (cfg : Config) (g : Globals) (c : Cond) (evals : List Bool) (w : Wait) :
    Globals × Move :=
  let r := waitStep cfg (ticks g) g.teardown (g.cur = none) w
  match r.2 with
  | .none => (g, .goto (.wait c evals r.1))
  | .eval =>
    let e := evalCond cfg c g
    let f := Frame.wait c (e.1 :: evals) (waitCond e.1 r.1)
    (e.2, if e.1 ∧ c.wakes then .call f (.op [.wake]) else .goto f)
  | .park timed wakeAt => (g, .call (.wait c evals r.1) (.park timed wakeAt .current))
  | .count => ({ g with waitDepth := g.waitDepth + 1 }, .goto (.wait c evals r.1))
  | .uncount => ({ g with waitDepth := g.waitDepth - 1 }, .goto (.wait c evals r.1))
  | .wake => (wake g, .goto (.wait c evals r.1))
  | .ret satisfied => (g, .ret satisfied)

/-- `mmosal_task_wait_for_notification`. -/
def notifyWaitStep (g : Globals) (timeoutMs : UInt32) : Move :=
  match g.cur with
  | none => .ret false
  | some t => .goto (waitOn (.notified t) timeoutMs)

/-- `mmosal_mutex_get`: an infinite wait first waits 9000 ms and reports a slow mutex. -/
def mutexGetStep (m : Nat) (timeoutMs : UInt32) : MutexGetPc → Move
  | .enter =>
    if timeoutMs = waitForever then .call (.mutexGet m timeoutMs .first) (waitOn (.mutexAcquired m) 9000)
    else .goto (waitOn (.mutexAcquired m) timeoutMs)
  -- waiting for the result of the first wait
  | .first => .goto (.mutexGet m timeoutMs .report)
  | .report => .goto (waitOn (.mutexAcquired m) timeoutMs)
  | .done => .ret true

/-- One step of an operation. -/
def opStep (cfg : Config) (o : Choice) (g : Globals) : List Micro → Globals × Move
  | [] => (g, .ret true)
  | .retire t :: _ => (g, .retire t)
  | m :: rest =>
    let r := microStep cfg o.heap m rest g
    (r.2, .goto (.op r.1))

/-- A claim of the code's own. -/
def regionStep (x : Ctx) (o : Choice) (g : Globals) : RegionPc → Globals × Move
  | .claim =>
    let r := claim x g
    (r.2, .goto (.region (if r.1 then .inside else .refused)))
  | .refused => (g, .ret false)
  | .inside => (g, codeStep o (.region .inside) (.goto (.region .release)))
  | .release => (release g, .ret true)

/-- One step of the top frame. -/
def frameStep (cfg : Config) (x : Ctx) (o : Choice) (g : Globals) : Frame → Globals × Move
  | .poll pc => pollStep x o g pc
  | .yield pc => yieldStep x o g pc
  | .park timed wakeAt pc => parkStep g timed wakeAt pc
  | .run pc => runEntryStep g pc
  | .wait c evals w => waitFrame cfg g c evals w
  | .notifyWait timeoutMs => (g, notifyWaitStep g timeoutMs)
  | .mutexGet m timeoutMs pc => (g, mutexGetStep m timeoutMs pc)
  | .op todo => opStep cfg o g todo
  | .region pc => regionStep x o g pc

/-- A caller gets a result. -/
def resumeWith (r : Bool) : Frame → Frame
  | .mutexGet m timeoutMs .first => .mutexGet m timeoutMs (if r then .done else .report)
  | f => f

/-- A stack gets a result. -/
def returnTo (r : Bool) : List Frame → List Frame
  | [] => []
  | f :: rest => resumeWith r f :: rest

/-! ## Contexts -/

/-- The passes of `mm_halow_sched_run`, after its entry. -/
inductive RunPc where
  | deadline
  | passTest (pass : Nat)
  | clearWoken (pass : Nat)
  | resetWakeAt (pass : Nat)
  | walk (pass : Nat) (task : Option TaskId)
  | setCur (pass : Nat) (t : TaskId)
  | resume (pass : Nat) (t : TaskId)
  | inTurn (pass : Nat) (t : TaskId)
  | clearCur (pass : Nat) (t : TaskId)
  | passEnd (pass : Nat)
  | reap
  | finish
  deriving Repr, DecidableEq

/-- `mm_halow_sched_run` under way, and the frames of the task that has its turn. -/
structure Body where
  pc : RunPc
  frames : List Frame
  deriving Repr, DecidableEq

/-- A context: its frames, and the run it is in. -/
structure Context where
  frames : List Frame
  body : Option Body
  deriving Repr, DecidableEq

/-- One step of `mm_halow_sched_run` outside a task's turn; `none` when it returns. -/
def bodyStep (cfg : Config) (g : Globals) : RunPc → Globals × Option Body
  | .deadline => ({ g with deadline := ticks g + cfg.budgetMs }, some ⟨.passTest 0, []⟩)
  | .passTest pass =>
    (g, some ⟨if pass < cfg.passes ∧ passExpired g = false then .clearWoken pass else .reap, []⟩)
  | .clearWoken pass => ({ g with woken := false }, some ⟨.resetWakeAt pass, []⟩)
  | .resetWakeAt pass =>
    ({ wakeAtReset g with passAt := g.now, polledAt := g.now, passed := true },
      some ⟨.walk pass g.taskList.head?, []⟩)
  | .walk pass none => (g, some ⟨.passEnd pass, []⟩)
  | .walk pass (some t) =>
    (g, some ⟨if (g.task t).state = .ready then .setCur pass t
      else .walk pass (nextTask g.taskList t), []⟩)
  | .setCur pass t => ({ g with cur := some t }, some ⟨.resume pass t, []⟩)
  | .resume pass t => (g, some ⟨.inTurn pass t, (g.task t).sp⟩)
  | .inTurn pass t => (g, some ⟨.inTurn pass t, []⟩)
  | .clearCur pass t => ({ g with cur := none }, some ⟨.walk pass (nextTask g.taskList t), []⟩)
  | .passEnd pass => (g, some ⟨if g.woken then .passTest (pass + 1) else .reap, []⟩)
  | .reap => (Sched.reap g, some ⟨.finish, []⟩)
  | .finish => ({ g with running := false }, none)

/-- What the frames of a stack do in one step. -/
inductive StackMove where
  | frames (l : List Frame)
  | switch (t : TaskId) (rest : List Frame)
  | retire (t : TaskId)
  | enter (rest : List Frame)
  | finished
  deriving Repr, DecidableEq

/-- What the move of the top frame makes of its stack. -/
def Move.onto (rest : List Frame) : Move → StackMove
  | .goto f => .frames (f :: rest)
  | .call f callee => .frames (callee :: f :: rest)
  | .ret r => .frames (returnTo r rest)
  | .switch t => .switch t rest
  | .retire t => .retire t
  | .enter => .enter rest

/-- One step of a stack; an empty one is code that can make any call. -/
def stackStep (cfg : Config) (x : Ctx) (o : Choice) (g : Globals) : List Frame → Globals × StackMove
  | [] =>
    (g, match o.call with
      | some c => .frames [c.frame]
      | none => .finished)
  | f :: rest => ((frameStep cfg x o g f).1, (frameStep cfg x o g f).2.onto rest)

/-- One step of a context; its frames and its run afterwards, `none` when it has nothing to do.
Outside a run, a switch is to a task this context does not run. -/
def Context.step (cfg : Config) (x : Ctx) (o : Choice) (g : Globals) (c : Context) :
    Globals × Option Context :=
  match c.body with
  | none =>
    let r := stackStep cfg x o g c.frames
    match r.2 with
    | .frames l => (r.1, some ⟨l, none⟩)
    | .enter rest => (r.1, some ⟨rest, some ⟨.deadline, []⟩⟩)
    | .finished => (r.1, none)
    | .switch _ _ => (g, some c)
    | .retire _ => (g, some c)
  | some ⟨.inTurn pass t, frames⟩ =>
    let r := stackStep cfg x o g frames
    match r.2 with
    | .frames l => (r.1, some ⟨c.frames, some ⟨.inTurn pass t, l⟩⟩)
    | .finished => (r.1, some ⟨c.frames, some ⟨.inTurn pass t, [.op (Op.taskDelete none).micros]⟩⟩)
    | .switch t' rest =>
      if t' = t then
        (setTask r.1 t fun k => { k with sp := rest }, some ⟨c.frames, some ⟨.clearCur pass t, []⟩⟩)
      else (g, some c)
    | .retire t' =>
      if t' = t then
        (setTask r.1 t fun k => { k with sp := [] }, some ⟨c.frames, some ⟨.clearCur pass t, []⟩⟩)
      else (g, some c)
    | .enter _ => (g, some c)
  | some ⟨pc, _⟩ =>
    let r := bodyStep cfg g pc
    (r.1, some ⟨c.frames, r.2⟩)

/-- **What one step of a context can be.** `stuck` is a switch away from a task that the context
does not run. -/
inductive CtxStep (cfg : Config) (x : Ctx) (o : Choice) (g : Globals) (c : Context) :
    Globals → Option Context → Prop
  | frames {g' : Globals} {l : List Frame} : c.body = none →
      stackStep cfg x o g c.frames = (g', .frames l) → CtxStep cfg x o g c g' (some ⟨l, none⟩)
  | enter {g' : Globals} {rest : List Frame} : c.body = none →
      stackStep cfg x o g c.frames = (g', .enter rest) →
      CtxStep cfg x o g c g' (some ⟨rest, some ⟨.deadline, []⟩⟩)
  | finished {g' : Globals} : c.body = none →
      stackStep cfg x o g c.frames = (g', .finished) → CtxStep cfg x o g c g' none
  | stuck : CtxStep cfg x o g c g (some c)
  | turn {g' : Globals} {pass : Nat} {t : TaskId} {fr l : List Frame} :
      c.body = some ⟨.inTurn pass t, fr⟩ → stackStep cfg x o g fr = (g', .frames l) →
      CtxStep cfg x o g c g' (some ⟨c.frames, some ⟨.inTurn pass t, l⟩⟩)
  | returned {g' : Globals} {pass : Nat} {t : TaskId} {fr : List Frame} :
      c.body = some ⟨.inTurn pass t, fr⟩ → stackStep cfg x o g fr = (g', .finished) →
      CtxStep cfg x o g c g'
        (some ⟨c.frames, some ⟨.inTurn pass t, [.op (Op.taskDelete none).micros]⟩⟩)
  | switch {g' : Globals} {pass : Nat} {t : TaskId} {fr rest : List Frame} :
      c.body = some ⟨.inTurn pass t, fr⟩ → stackStep cfg x o g fr = (g', .switch t rest) →
      CtxStep cfg x o g c (setTask g' t fun k => { k with sp := rest })
        (some ⟨c.frames, some ⟨.clearCur pass t, []⟩⟩)
  | retire {g' : Globals} {pass : Nat} {t : TaskId} {fr : List Frame} :
      c.body = some ⟨.inTurn pass t, fr⟩ → stackStep cfg x o g fr = (g', .retire t) →
      CtxStep cfg x o g c (setTask g' t fun k => { k with sp := [] })
        (some ⟨c.frames, some ⟨.clearCur pass t, []⟩⟩)
  | body {pc : RunPc} {fr : List Frame} : c.body = some ⟨pc, fr⟩ →
      (∀ pass t, pc ≠ .inTurn pass t) →
      CtxStep cfg x o g c (bodyStep cfg g pc).1 (some ⟨c.frames, (bodyStep cfg g pc).2⟩)

theorem Context.step_cases {cfg : Config} {x : Ctx} {o : Choice} {g g' : Globals} {c : Context}
    {c' : Option Context} (h : c.step cfg x o g = (g', c')) : CtxStep cfg x o g c g' c' := by
  unfold Context.step at h
  split at h
  · next hb =>
    cases hs : stackStep cfg x o g c.frames with
    | mk g1 sm =>
      rw [hs] at h
      cases sm with
      | frames l =>
        obtain ⟨rfl, rfl⟩ := Prod.mk.inj h
        exact .frames hb hs
      | enter rest =>
        obtain ⟨rfl, rfl⟩ := Prod.mk.inj h
        exact .enter hb hs
      | finished =>
        obtain ⟨rfl, rfl⟩ := Prod.mk.inj h
        exact .finished hb hs
      | _ =>
        obtain ⟨rfl, rfl⟩ := Prod.mk.inj h
        exact .stuck
  · next pass t fr hb =>
    cases hs : stackStep cfg x o g fr with
    | mk g1 sm =>
      rw [hs] at h
      cases sm with
      | frames l =>
        obtain ⟨rfl, rfl⟩ := Prod.mk.inj h
        exact .turn hb hs
      | finished =>
        obtain ⟨rfl, rfl⟩ := Prod.mk.inj h
        exact .returned hb hs
      | switch u rest =>
        by_cases hu : u = t
        · subst hu
          simp only [if_true] at h
          obtain ⟨rfl, rfl⟩ := Prod.mk.inj h
          exact .switch hb hs
        · simp only [if_neg hu] at h
          obtain ⟨rfl, rfl⟩ := Prod.mk.inj h
          exact .stuck
      | retire u =>
        by_cases hu : u = t
        · subst hu
          simp only [if_true] at h
          obtain ⟨rfl, rfl⟩ := Prod.mk.inj h
          exact .retire hb hs
        · simp only [if_neg hu] at h
          obtain ⟨rfl, rfl⟩ := Prod.mk.inj h
          exact .stuck
      | enter rest =>
        obtain ⟨rfl, rfl⟩ := Prod.mk.inj h
        exact .stuck
  · next pc fr hne hb =>
    obtain ⟨rfl, rfl⟩ := Prod.mk.inj h
    exact .body hb hne

/-! ## The machine -/

/-- The globals, thread context, PendSV where it is active, and the other interrupts, innermost
first, each in the middle of an operation. -/
structure Machine where
  g : Globals
  thread : Context
  pendsv : Option Context
  isrs : List (List Micro)

/-- The context, where it is active. -/
def Machine.ctx (s : Machine) : Ctx → Option Context
  | .thread => some s.thread
  | .irq => s.pendsv

/-- Time passes. -/
def advance (dt : Nat) (g : Globals) : Globals := { g with now := g.now + dt }

/-- What happens next. -/
inductive Event where
  /-- An interrupt makes an operation. -/
  | isr (o : Op)
  | isrStep (o : Choice)
  /-- PendSV is taken. -/
  | dispatch
  | pendsv (o : Choice)
  | thread (o : Choice)
  deriving Repr, DecidableEq

/-- A context that is not in a call. -/
def idle : Context := ⟨[], none⟩

/-- One step of the machine; `none` where the event cannot happen. An interrupt does not delete the
current task. -/
def step (cfg : Config) (s : Machine) : Event → Option Machine
  | .isr o => if o = .taskDelete none then none else some { s with isrs := o.micros :: s.isrs }
  | .isrStep o =>
    match s.isrs with
    | [] => none
    | [] :: rest => some { s with g := advance o.dt s.g, isrs := rest }
    | (m :: todo) :: rest =>
      let r := microStep cfg o.heap m todo (advance o.dt s.g)
      some { s with g := r.2, isrs := r.1 :: rest }
  | .dispatch =>
    if s.isrs = [] ∧ s.pendsv = none then some { s with pendsv := some idle } else none
  | .pendsv o =>
    if s.isrs = [] then
      s.pendsv.map fun c =>
        let r := c.step cfg .irq o (advance o.dt s.g)
        { s with g := r.1, pendsv := r.2 }
    else none
  | .thread o =>
    if s.isrs = [] ∧ s.pendsv = none then
      let r := s.thread.step cfg .thread o (advance o.dt s.g)
      some { s with g := r.1, thread := r.2.getD idle }
    else none

/-- The step as a relation. -/
def Step (cfg : Config) (s : Machine) (e : Event) (t : Machine) : Prop := step cfg s e = some t

/-- **What one step of the machine can be.** -/
inductive MachineStep (cfg : Config) (s : Machine) : Event → Machine → Prop
  | isr {p : Op} : p ≠ .taskDelete none →
      MachineStep cfg s (.isr p) { s with isrs := p.micros :: s.isrs }
  | isrDone {o : Choice} {rest : List (List Micro)} : s.isrs = [] :: rest →
      MachineStep cfg s (.isrStep o) { s with g := advance o.dt s.g, isrs := rest }
  | isrStep {o : Choice} {m : Micro} {todo : List Micro} {rest : List (List Micro)} :
      s.isrs = (m :: todo) :: rest → MachineStep cfg s (.isrStep o)
        { s with
          g := (microStep cfg o.heap m todo (advance o.dt s.g)).2
          isrs := (microStep cfg o.heap m todo (advance o.dt s.g)).1 :: rest }
  | dispatch : s.isrs = [] → s.pendsv = none →
      MachineStep cfg s .dispatch { s with pendsv := some idle }
  | pendsv {o : Choice} {c : Context} {g' : Globals} {c' : Option Context} : s.isrs = [] →
      s.pendsv = some c → c.step cfg .irq o (advance o.dt s.g) = (g', c') →
      MachineStep cfg s (.pendsv o) { s with g := g', pendsv := c' }
  | thread {o : Choice} {g' : Globals} {c' : Option Context} : s.isrs = [] → s.pendsv = none →
      s.thread.step cfg .thread o (advance o.dt s.g) = (g', c') →
      MachineStep cfg s (.thread o) { s with g := g', thread := c'.getD idle }

theorem Step.cases {cfg : Config} {s u : Machine} {e : Event} (h : Step cfg s e u) :
    MachineStep cfg s e u := by
  unfold Step step at h
  cases e with
  | isr p =>
    simp only at h
    split_ifs at h with hp
    obtain rfl := Option.some.inj h
    exact .isr hp
  | isrStep o =>
    simp only at h
    split at h
    · exact absurd h (Option.some_ne_none u).symm
    · next hi =>
      obtain rfl := Option.some.inj h
      exact .isrDone hi
    · next hi =>
      obtain rfl := Option.some.inj h
      exact .isrStep hi
  | dispatch =>
    simp only at h
    split_ifs at h with hd
    obtain rfl := Option.some.inj h
    exact .dispatch hd.1 hd.2
  | pendsv o =>
    simp only at h
    split_ifs at h with hd
    obtain ⟨c, hc, rfl⟩ := Option.map_eq_some_iff.mp h
    exact .pendsv hd hc rfl
  | thread o =>
    simp only at h
    split_ifs at h with hd
    obtain rfl := Option.some.inj h
    exact .thread hd.1 hd.2 rfl

/-- The statically initialised globals at tick `now`, with the OSAL objects given. -/
def bootGlobals (now : Nat) (mutex : Nat → Mutex) (sem : Nat → Sem) (semb : Nat → Bool)
    (queue : Nat → Queue) : Globals where
  now := now
  task := fun _ => ⟨[], false, 0, .ready⟩
  taskList := []
  cur := none
  woken := false
  wakeAt := 0
  running := false
  deadline := 0
  owner := .none
  depth := 0
  waitDepth := 0
  teardown := false
  pollRequested := false
  mutex := mutex
  sem := sem
  semb := semb
  queue := queue
  log := []
  polledAt := now
  passAt := now
  passed := false

/-- The machine at boot. -/
def boot (g : Globals) : Machine := ⟨g, idle, none, []⟩

/-- Boot at tick 0 with unlocked mutexes, empty semaphores of one token and empty queues of four
words. -/
def bootBare : Machine :=
  boot (bootGlobals 0 (fun _ => ⟨none, 0, false⟩) (fun _ => semCreate 1 0) (fun _ => false)
    fun _ => queueInit .ilp32 4 4 0x20000000 fun _ => 0)

/-- A run by evaluation, to a state of which `p` holds. -/
theorem run_any {cfg : Config} {s : Machine} {tr : List Event} (p : Machine → Bool)
    (h : (tr.foldlM (step cfg) s).any p = true) : ∃ t, Run (Step cfg) s tr t ∧ p t = true :=
  Run.ofFold_any (fun _ _ _ h => h) h

/-- A step that meets nothing special. -/
def go : Choice := ⟨0, none, true, false, false, true⟩

/-- The step at which code makes the call `c`. -/
def calling (c : Call) : Choice := { go with call := some c }

end MmHalow.Sched
