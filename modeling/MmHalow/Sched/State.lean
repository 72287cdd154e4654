import MmHalow.Lib.Preempt
import MmHalow.Osal.Sync
import MmHalow.Sched.Wait

/-!
# The scheduler's data (`mm_halow_sched.c`, `mm_halow_osal.c`)

The globals that the scheduler, the waits and the OSAL objects share, and the functions that act
on them in one atomic step. What takes several steps is a frame of a stack (`Frame`): a call in
progress with the place it stands at. A task that is not running keeps its frames at `sp`.

| source                                        | here                       |
|-----------------------------------------------|----------------------------|
| `mm_halow_task_t`                             | `Task`                     |
| `mm_halow_sched_wake`, `mm_halow_sched_pending` | `wake`, `pending`        |
| `mm_halow_sched_wake_at_reset`                | `wakeAtReset`              |
| `mm_halow_pass_expired`                       | `passExpired`              |
| `mm_halow_sched_claim`, `mm_halow_sched_release` | `claim`, `release`      |
| `mm_halow_sched_reap`                         | `reap`                     |
| `mm_halow_sched_task_create`                  | `taskCreate`               |
| the conditions of the OSAL waits              | `Cond`, `evalCond`         |
| the OSAL operations, store by store           | `Op.micros`, `microStep`   |

`log`, `polledAt`, `passAt`, `passed` and the `evals` of a wait are bookkeeping: what took effect,
when the scheduler was last polled, when the last pass began and whether there was one, and what
the evaluations of a condition gave. No definition reads them.
-/

namespace MmHalow.Sched

open MmHalow.Lib MmHalow.Lib.Clock MmHalow.Osal

/-- A slot of `mm_halow_tasks`. -/
abbrev TaskId := Nat

/-- `MM_HALOW_TASK_READY` or `MM_HALOW_TASK_DEAD`. -/
inductive TaskState where
  | ready
  | dead
  deriving Repr, DecidableEq

/-! ## Waits and operations -/

/-- The conditions of the OSAL's waits. -/
inductive Cond where
  | notified (t : TaskId)
  | mutexAcquired (m : Nat)
  | semTaken (s : Nat)
  | sembTaken (s : Nat)
  | queuePopped (q : Nat)
  | queuePushed (q : Nat) (item : List UInt8)
  | isDead (t : TaskId)
  deriving Repr, DecidableEq

/-- An atomic step of an operation. -/
inductive Micro where
  | wake
  | notify (t : TaskId)
  | mutexClearOwner (m : Nat)
  | mutexUnlock (m : Nat)
  | semGive (s : Nat)
  | sembGive (s : Nat)
  | queuePush (q : Nat) (item : List UInt8)
  | queuePop (q : Nat)
  | markDead (t : TaskId)
  | deleteSelf
  | retire (t : TaskId)
  | create
  | setTeardown (b : Bool)
  | requestPoll
  | pending
  deriving Repr, DecidableEq

/-- The operations that do not wait. -/
inductive Op where
  | notify (t : TaskId)
  | mutexRelease (m : Nat)
  | semGive (s : Nat)
  | sembGive (s : Nat)
  | queuePush (q : Nat) (item : List UInt8)
  | queuePop (q : Nat)
  | taskDelete (t : Option TaskId)
  | taskCreate
  | setTeardown (b : Bool)
  | requestPoll
  | pending
  deriving Repr, DecidableEq

/-- The steps of an operation. -/
def Op.micros : Op → List Micro
  | .notify t => [.notify t, .wake]
  | .mutexRelease m => [.mutexClearOwner m, .mutexUnlock m, .wake]
  | .semGive s => [.semGive s, .wake]
  | .sembGive s => [.sembGive s, .wake]
  | .queuePush q item => [.queuePush q item, .wake]
  | .queuePop q => [.queuePop q, .wake]
  | .taskDelete (some t) => [.markDead t, .wake]
  | .taskDelete none => [.deleteSelf]
  | .taskCreate => [.create, .wake]
  | .setTeardown b => [.setTeardown b]
  | .requestPoll => [.requestPoll]
  | .pending => [.pending]

/-! ## Frames -/

/-- `mm_halow_poll_func`. -/
inductive PollPc where
  | initted
  | current
  | claim
  | refused
  | requested
  | irqPending
  | timerPending
  | schedPending
  | quietRelease
  | request
  | irqs
  | timers
  | run
  | inRun
  | release
  | rearm
  deriving Repr, DecidableEq

/-- `mm_halow_sched_yield`. -/
inductive YieldPc where
  | current
  | woken (t : TaskId)
  | switch (t : TaskId)
  | claim
  | run
  | inRun
  | release
  | hook
  deriving Repr, DecidableEq

/-- `mm_halow_sched_park`. -/
inductive ParkPc where
  | current
  | deadline (t : TaskId)
  | switch (t : TaskId)
  deriving Repr, DecidableEq

/-- The entry of `mm_halow_sched_run`, up to `mm_halow_sched_running = true`. -/
inductive RunEntryPc where
  | check
  | set
  deriving Repr, DecidableEq

/-- `mmosal_mutex_get`. -/
inductive MutexGetPc where
  | enter
  | first
  | report
  | done
  deriving Repr, DecidableEq

/-- The code of a claim of its own: `mm_halow_sched_claim`, then, where it was granted, anything,
then `mm_halow_sched_release`. -/
inductive RegionPc where
  | claim
  | refused
  | inside
  | release
  deriving Repr, DecidableEq

/-- A call in progress. `evals` records what the evaluations of a wait's condition gave, last
first. -/
inductive Frame where
  | poll (pc : PollPc)
  | yield (pc : YieldPc)
  | park (timed : Bool) (wakeAt : UInt32) (pc : ParkPc)
  | run (pc : RunEntryPc)
  | wait (c : Cond) (evals : List Bool) (w : Wait)
  | notifyWait (timeoutMs : UInt32)
  | mutexGet (m : Nat) (timeoutMs : UInt32) (pc : MutexGetPc)
  | op (todo : List Micro)
  | region (pc : RegionPc)
  deriving Repr, DecidableEq

/-! ## The globals -/

/-- `mm_halow_task_t`; `stack` tells whether a stack is allocated, `sp` is what is saved on it. -/
structure Task where
  sp : List Frame
  stack : Bool
  notify : UInt32
  state : TaskState
  deriving Repr, DecidableEq

/-- What took effect. -/
inductive Effect where
  | notified (t : TaskId)
  | notificationTaken (t : TaskId)
  | semGiven (s : Nat)
  | semTaken (s : Nat)
  | sembGiven (s : Nat)
  | sembTaken (s : Nat)
  | pushed (q : Nat) (item : List UInt8)
  | popped (q : Nat) (item : List UInt8)
  | created (t : TaskId)
  deriving Repr, DecidableEq

/-- `mm_halow_service_owner`. -/
inductive Owner where
  | none
  | thread
  | irq
  deriving Repr, DecidableEq

def ownerOf : Ctx → Owner
  | .thread => .thread
  | .irq => .irq

/-- The globals; `now` is the clock whose low word is the tick. -/
structure Globals where
  now : Nat
  task : TaskId → Task
  /-- `mm_halow_task_list`, in creation order. -/
  taskList : List TaskId
  /-- `mm_halow_task_cur`. -/
  cur : Option TaskId
  woken : Bool
  wakeAt : UInt32
  running : Bool
  deadline : UInt32
  owner : Owner
  depth : UInt8
  waitDepth : UInt16
  teardown : Bool
  pollRequested : Bool
  mutex : Nat → Mutex
  sem : Nat → Sem
  semb : Nat → Bool
  queue : Nat → Queue
  log : List Effect
  polledAt : Nat
  passAt : Nat
  passed : Bool

/-- `mm_halow_ticks_ms`. -/
def ticks (g : Globals) : UInt32 := tick g.now

/-- `mm_halow_sched_wake`. -/
def wake (g : Globals) : Globals := { g with woken := true }

/-- `mm_halow_sched_pending`. -/
def pending (g : Globals) : Bool := g.woken || reached (ticks g) g.wakeAt

/-- `INT32_MAX`. -/
def int32Max : UInt32 := 0x7fffffff

/-- `mm_halow_sched_wake_at_reset`; the constant stands first so that the sum does not unfold. -/
def wakeAtReset (g : Globals) : Globals := { g with wakeAt := int32Max + ticks g }

/-- `mm_halow_pass_expired`. -/
def passExpired (g : Globals) : Bool := g.running && reached (ticks g) g.deadline

/-- The critical section of `mm_halow_sched_claim` in context `x`. -/
def claim (x : Ctx) (g : Globals) : Bool × Globals :=
  if g.owner = .none ∨ g.owner = ownerOf x then
    (true, { g with owner := ownerOf x, depth := g.depth + 1 })
  else (false, g)

/-- The critical section of `mm_halow_sched_release`. -/
def release (g : Globals) : Globals :=
  if 0 < g.depth then
    { g with depth := g.depth - 1, owner := if g.depth - 1 = 0 then .none else g.owner }
  else g

def setTask (g : Globals) (t : TaskId) (f : Task → Task) : Globals :=
  { g with task := Function.update g.task t (f (g.task t)) }

/-- `mm_halow_sched_reap`: the dead tasks leave the list and give their stacks back. -/
def reap (g : Globals) : Globals :=
  { g with
    taskList := g.taskList.filter fun t => (g.task t).state = .ready
    task := fun t =>
      if t ∈ g.taskList ∧ (g.task t).state = .dead then { g.task t with stack := false }
      else g.task t }

/-- The slot `mm_halow_sched_task_create` takes: the first without a stack. -/
def freeSlot (cfg : Config) (g : Globals) : Option TaskId :=
  (List.range cfg.maxTasks).find? fun t => !(g.task t).stack

/-- `mm_halow_sched_task_create` up to its wake, where `heap` tells whether the stack could be
allocated. A new task's first turn begins with no call in progress. -/
def taskCreate (cfg : Config) (heap : Bool) (g : Globals) : Option Globals :=
  match freeSlot cfg g with
  | none => none
  | some t =>
    if heap then
      some { setTask g t fun _ => ⟨[], true, 0, .ready⟩ with
        taskList := g.taskList ++ [t], log := .created t :: g.log }
    else none

/-- `task->next` of a task on the list. -/
def nextTask (l : List TaskId) (t : TaskId) : Option TaskId :=
  ((l.dropWhile (· ≠ t)).drop 1).head?

/-! ## Conditions -/

/-- One evaluation of a wait's condition: its result and its effect. -/
def evalCond (cfg : Config) (c : Cond) (g : Globals) : Bool × Globals :=
  match c with
  | .notified t =>
    let r := taskNotified (g.task t).notify
    if r.1 then (true, { setTask g t fun k => { k with notify := r.2 } with
      log := .notificationTaken t :: g.log })
    else (false, g)
  | .mutexAcquired m =>
    let r := Osal.mutexAcquired g.cur (ticks g) (g.mutex m)
    (r.1, { g with mutex := Function.update g.mutex m r.2 })
  | .semTaken s =>
    let r := Osal.semTaken (g.sem s)
    if r.1 then (true, { g with sem := Function.update g.sem s r.2, log := .semTaken s :: g.log })
    else (false, g)
  | .sembTaken s =>
    let r := Osal.sembTaken (g.semb s)
    (r.1, { g with
      semb := Function.update g.semb s r.2
      log := if r.1 then .sembTaken s :: g.log else g.log })
  | .queuePopped q =>
    match queuePopFromIsr cfg.abi (g.queue q) with
    | (some item, q') =>
      (true, { g with queue := Function.update g.queue q q', log := .popped q item :: g.log })
    | (none, _) => (false, g)
  | .queuePushed q item =>
    let r := queuePushFromIsr cfg.abi item (g.queue q)
    if r.1 then
      (true, { g with
        queue := Function.update g.queue q r.2
        log := .pushed q ((g.queue q).copied item) :: g.log })
    else (false, g)
  | .isDead t => ((g.task t).state = .dead, g)

/-- A condition function that calls `mm_halow_sched_wake` itself. -/
def Cond.wakes : Cond → Bool
  | .queuePopped _ => true
  | .queuePushed _ _ => true
  | _ => false

/-! ## Operations -/

/-- One step of an operation with `rest` still to do: the steps left, and the effect. A step that
fails drops the wake that would follow it. -/
def microStep (cfg : Config) (heap : Bool) (m : Micro) (rest : List Micro) (g : Globals) :
    List Micro × Globals :=
  match m with
  | .wake => (rest, wake g)
  | .notify t =>
    (rest, { setTask g t fun k => { k with notify := taskNotify k.notify } with
      log := .notified t :: g.log })
  | .mutexClearOwner m =>
    (rest, { g with mutex := Function.update g.mutex m { g.mutex m with owner := none } })
  | .mutexUnlock m =>
    (rest, { g with mutex := Function.update g.mutex m { g.mutex m with locked := false } })
  | .semGive s =>
    let r := Osal.semGive (g.sem s)
    if r.1 then
      (rest, { g with sem := Function.update g.sem s r.2, log := .semGiven s :: g.log })
    else ([], g)
  | .sembGive s =>
    (rest, { g with
      semb := Function.update g.semb s (Osal.sembGive (g.semb s)), log := .sembGiven s :: g.log })
  | .queuePush q item =>
    let r := queuePushFromIsr cfg.abi item (g.queue q)
    if r.1 then
      (rest, { g with
        queue := Function.update g.queue q r.2
        log := .pushed q ((g.queue q).copied item) :: g.log })
    else ([], g)
  | .queuePop q =>
    match queuePopFromIsr cfg.abi (g.queue q) with
    | (some item, q') =>
      (rest, { g with queue := Function.update g.queue q q', log := .popped q item :: g.log })
    | (none, _) => ([], g)
  | .markDead t => (rest, setTask g t fun k => { k with state := .dead })
  | .deleteSelf =>
    match g.cur with
    | none => ([], g)
    | some t => ([.markDead t, .wake, .retire t], g)
  -- the context switch away from the retired task is the machine's
  | .retire _ => ([], g)
  | .create =>
    match taskCreate cfg heap g with
    | none => ([], g)
    | some g' => (rest, g')
  | .setTeardown b => (rest, { g with teardown := b })
  | .requestPoll => (rest, { g with pollRequested := true })
  | .pending => (rest, if pending g then g else { g with polledAt := g.now })

variable {g : Globals} {t u : TaskId} {k : Task → Task}

@[simp] theorem setTask_self (g : Globals) (t : TaskId) (k : Task → Task) :
    (setTask g t k).task t = k (g.task t) := Function.update_self ..

theorem setTask_other (h : t ≠ u) : (setTask g u k).task t = g.task t :=
  Function.update_of_ne h _ _

/-- A field that an update of a slot keeps is kept in every slot. -/
theorem update_field {β : Type} {task : TaskId → Task} {v : Task} (p : Task → β)
    (h : p v = p (task u)) : p (Function.update task u v t) = p (task t) := by
  by_cases ht : t = u
  · rw [ht, Function.update_self, h]
  · rw [Function.update_of_ne ht]

/-- **What creating a task does**: a slot without a stack gets a new task, last on the list. -/
theorem taskCreate_cases {cfg : Config} {heap : Bool} {g' : Globals}
    (h : taskCreate cfg heap g = some g') : ∃ t, freeSlot cfg g = some t ∧
      g' = { g with
        task := Function.update g.task t ⟨[], true, 0, .ready⟩
        taskList := g.taskList ++ [t]
        log := .created t :: g.log } := by
  unfold taskCreate at h
  cases hs : freeSlot cfg g with
  | none => simp [hs] at h
  | some t =>
    simp only [hs] at h
    split_ifs at h
    exact ⟨t, rfl, (Option.some.inj h).symm⟩

end MmHalow.Sched
