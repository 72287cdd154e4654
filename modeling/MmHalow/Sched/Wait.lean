import MmHalow.Lib.Clock
import MmHalow.Osal.Heap

/-!
# The wait loop (`mm_halow_sched_wait`)

The control of a wait, apart from its condition and from the scheduler: the places it stands at,
what it reads there (the tick, `mm_halow_sched_teardown`, whether a task is current) and what it
asks for (`WaitAct`). The condition is evaluated at `cond` and once more at `recheck`, and its
result is handed to `waitCond`; each park is followed by another evaluation.

| source                                       | here                     |
|----------------------------------------------|--------------------------|
| the cap on `timeout_ms`                      | `WaitPc.cap`             |
| `start`, `counted`                           | `WaitPc.start`, `counted`|
| `if (cond(arg))`                             | `WaitPc.cond`            |
| `if (timeout_ms == 0)`, `if (forever)`       | `WaitPc.zero`            |
| the teardown branch                          | `WaitPc.teardown`        |
| the elapsed test and the last `cond(arg)`    | `WaitPc.elapsed`, `recheck` |
| after the loop                               | `WaitPc.leave`, `wake`, `done` |
-/

namespace MmHalow.Sched

open MmHalow.Osal

/-- The build's settings. -/
structure Config where
  abi : Abi
  /-- `MM_HALOW_SCHED_MAX_TASKS`. -/
  maxTasks : Nat
  /-- `MM_HALOW_SCHED_BUDGET_MS`. -/
  budgetMs : UInt32
  /-- `MM_HALOW_SCHED_WAIT_MAX_MS`. -/
  waitMaxMs : UInt32
  /-- `MM_HALOW_SCHED_PASSES`. -/
  passes : Nat

/-- The settings of a build that defines none, on the target. -/
def Config.defaults : Config := ⟨.ilp32, 4, 20, 10000, 4⟩

/-- `UINT32_MAX`, `MMOSAL_WAIT_FOREVER`. -/
def waitForever : UInt32 := 0xffffffff

/-- Where a wait stands. -/
inductive WaitPc where
  | cap
  | start
  | counted
  | cond
  | zero
  | teardown
  | elapsed
  | recheck
  | leave (satisfied : Bool)
  | wake (satisfied : Bool)
  | done
  deriving Repr, DecidableEq

/-- Where a wait evaluates its condition. -/
def WaitPc.evaluates : WaitPc → Bool
  | .cond => true
  | .recheck => true
  | _ => false

/-- The variables of `mm_halow_sched_wait`. `asked` is bookkeeping: the timeout that the call was
made with, which `timeoutMs` does not keep. -/
structure Wait where
  timeoutMs : UInt32
  forever : Bool
  start : UInt32
  counted : Bool
  pc : WaitPc
  asked : UInt32
  deriving Repr, DecidableEq

/-- What a step of a wait asks for. -/
inductive WaitAct where
  | none
  | eval
  | park (timed : Bool) (wakeAt : UInt32)
  | count
  | uncount
  | wake
  | ret (satisfied : Bool)
  deriving Repr, DecidableEq

/-- A wait is called. -/
def waitCall (timeoutMs : UInt32) : Wait := ⟨timeoutMs, false, 0, false, .cap, timeoutMs⟩

/-- One step of a wait that reads the tick, the teardown flag and whether no task is current. At
`cond` and `recheck` it asks for an evaluation, whose result goes to `waitCond`. -/
def waitStep (cfg : Config) (ticks : UInt32) (teardown outside : Bool) (w : Wait) : Wait × WaitAct :=
  match w.pc with
  | .cap =>
    let forever := w.timeoutMs = waitForever
    let capped := w.timeoutMs > cfg.waitMaxMs ∧ (¬ forever ∨ teardown = true)
    ({ w with
      forever := forever
      timeoutMs := if capped then cfg.waitMaxMs else w.timeoutMs
      pc := .start }, .none)
  | .start => ({ w with start := ticks, pc := .counted }, .none)
  | .counted => ({ w with counted := outside, pc := .cond }, if outside then .count else .none)
  | .cond => (w, .eval)
  | .zero =>
    if w.timeoutMs = 0 then ({ w with pc := .leave false }, .none)
    else ({ w with pc := if w.forever then .teardown else .elapsed }, .none)
  | .teardown =>
    if teardown then
      -- one bounded grace period from here
      ({ w with timeoutMs := cfg.waitMaxMs, start := ticks, forever := false, pc := .elapsed }, .none)
    else ({ w with pc := .cond }, .park false 0)
  | .elapsed =>
    if w.timeoutMs ≤ ticks - w.start then ({ w with pc := .recheck }, .none)
    else ({ w with pc := .cond }, .park true (w.start + w.timeoutMs))
  | .recheck => (w, .eval)
  | .leave satisfied =>
    ({ w with pc := .wake satisfied }, if w.counted then .uncount else .none)
  | .wake satisfied => if satisfied then ({ w with pc := .done }, .wake) else (w, .ret false)
  | .done => (w, .ret true)

/-- A wait goes on with the result of an evaluation. -/
def waitCond (result : Bool) (w : Wait) : Wait :=
  match w.pc with
  | .cond => { w with pc := if result then .leave true else .zero }
  | .recheck => { w with pc := .leave result }
  | _ => w

end MmHalow.Sched
