import Mathlib.Data.List.Pairwise
import Mathlib.Data.List.Perm.Subperm
import MmHalow.Lib.Chain
import MmHalow.Sched.Machine

/-!
# The task table and its list (`mm_halow_sched.c`), pointer by pointer

`mm_halow_task_list` and the `next` field of each slot are `Links`; `mm_halow_sched_task_create` walks
them to the last one, `mm_halow_sched_reap` unlinks as it walks and `mm_halow_sched_run` follows them
while its tasks change them. The code here runs in one context: outside a run any call may be made,
in a run the task that has its turn makes them, and interrupts wake tasks at any point.

| source                                | here                                  |
|---------------------------------------|---------------------------------------|
| `mm_halow_tasks`, `mm_halow_task_list` | `Slot`, `Table`                      |
| `mm_halow_sched_task_create`          | `Tasks.taskCreate`                    |
| `mm_halow_sched_task_delete`          | `Tasks.taskDelete`                    |
| `mm_halow_task_trampoline`, its end   | `TaskEvent.ret`                       |
| `mm_halow_sched_reap`                 | `Table.reap`, `Table.reapLoop`        |
| `mm_halow_sched_run`                  | `Tasks.run`, then `Tasks.body`        |
| `mm_halow_context_switch`             | `RunPc.resume`, `Tasks.switchAway`    |
| `mm_halow_sched_deinit`               | `Tasks.deinit`                        |

A loop over links that do not end would not end: it gives `none` after more steps than there are
slots. `blocks`, `died`, `freed` and `record` are bookkeeping: how many stacks have been allocated, the
stacks of the tasks marked dead, what `mm_halow_osal_free` was called with, and the passes of the run.

* `Listed`: the links lead through the slots in use, in creation order.
* `Listed.taskCreate`, `Listed.markDead`, `Listed.reap`: **what each operation makes of the list.**
* `Abstracts`: the table as the list that `Machine` has; `abstracts_body`, `abstracts_taskCreate`: **the
  code that follows links does what that machine does.**
-/

namespace MmHalow.Sched

open MmHalow.Lib MmHalow.Lib.Clock

/-! ## The data -/

/-- A slot of `mm_halow_tasks`; `stack` is the block it points to, `none` where it is `NULL`. -/
structure Slot where
  stack : Option Nat
  state : TaskState
  deriving Repr, DecidableEq

/-- The table and its list. -/
structure Table where
  slots : TaskId → Slot
  /-- `mm_halow_task_list` and the `next` fields. -/
  links : Links TaskId
  blocks : Nat
  died : List Nat
  freed : List (Option Nat)

/-- A pass of the run: the tasks that the walk reached, each with whether it was ready then, and the
tasks that had a turn, first to last. -/
structure Pass where
  visits : List (TaskId × Bool)
  turns : List TaskId
  deriving Repr, DecidableEq

/-- The scheduler's data, and where `mm_halow_sched_run` stands. -/
structure Tasks where
  tab : Table
  cur : Option TaskId
  woken : Bool
  wakeAt : UInt32
  running : Bool
  deadline : UInt32
  owner : Owner
  depth : UInt8
  now : Nat
  pc : Option RunPc
  record : List Pass

/-! ## The table's operations -/

/-- The slot that `mm_halow_sched_task_create` takes. -/
def Table.freeSlot (cfg : Config) (tab : Table) : Option TaskId :=
  (List.range cfg.maxTasks).find? fun t => (tab.slots t).stack = none

/-- A slot is set up with a new stack, and its `next` is `NULL`. -/
def Table.setUp (tab : Table) (t : TaskId) : Table :=
  { tab with
    slots := Function.update tab.slots t ⟨some tab.blocks, .ready⟩
    links := tab.links.write none (.next t)
    blocks := tab.blocks + 1 }

/-- The last link is made to point to the slot. -/
def Table.link (cfg : Config) (tab : Table) (t : TaskId) : Option Table :=
  (tab.links.lastCell (cfg.maxTasks + 1) .head).map fun tail =>
    { tab with links := tab.links.write (some t) tail }

/-- `task->state = MM_HALOW_TASK_DEAD`. -/
def Table.markDead (tab : Table) (t : TaskId) : Table :=
  { tab with
    slots := Function.update tab.slots t { tab.slots t with state := .dead }
    died := (tab.slots t).stack.toList ++ tab.died }

/-- A dead task is unlinked and gives its stack back. -/
def Table.drop (tab : Table) (prev : Cell TaskId) (t : TaskId) : Table :=
  { tab with
    slots := Function.update tab.slots t { tab.slots t with stack := none }
    links := (tab.links.write (tab.links.next t) prev).write none (.next t)
    freed := (tab.slots t).stack :: tab.freed }

/-- The loop of `mm_halow_sched_reap`, which keeps the link it came by. -/
def Table.reapLoop : Nat → Cell TaskId → Option TaskId → Table → Option Table
  | _, _, none, tab => some tab
  | 0, _, some _, _ => none
  | n + 1, prev, some t, tab =>
    let next := tab.links.next t
    if (tab.slots t).state = .dead then (tab.drop prev t).reapLoop n prev next
    else tab.reapLoop n (.next t) next

/-- **`mm_halow_sched_reap`.** -/
def Table.reap (cfg : Config) (tab : Table) : Option Table :=
  tab.reapLoop cfg.maxTasks .head tab.links.head

/-! ## The functions -/

/-- `mm_halow_sched_wake`. -/
def Tasks.wake (x : Tasks) : Tasks := { x with woken := true }

/-- `mm_halow_sched_wake_at_reset`. -/
def Tasks.wakeAtReset (x : Tasks) : Tasks := { x with wakeAt := int32Max + tick x.now }

/-- `mm_halow_pass_expired`. -/
def Tasks.passExpired (x : Tasks) : Bool := x.running && reached (tick x.now) x.deadline

/-- **`mm_halow_sched_task_create`**: whether it gives a task, and what it leaves. -/
def Tasks.taskCreate (cfg : Config) (heap : Bool) (x : Tasks) : Option (Bool × Tasks) :=
  match x.tab.freeSlot cfg with
  | none => some (false, x)
  | some t =>
    if heap then
      ((x.tab.setUp t).link cfg t).map fun tab => (true, { x with tab := tab }.wake)
    else some (false, x)

/-- A task leaves its turn, by `mm_halow_context_switch`. -/
def Tasks.switchAway (x : Tasks) : Tasks :=
  match x.pc with
  | some (.inTurn pass t) => { x with pc := some (.clearCur pass t) }
  | _ => x

/-- **`mm_halow_sched_task_delete`.** -/
def Tasks.taskDelete (x : Tasks) : Option TaskId → Tasks
  | some t => { x with tab := x.tab.markDead t }.wake
  | none =>
    match x.cur with
    | none => x
    | some t => { x with tab := x.tab.markDead t }.wake.switchAway

/-- `mm_halow_sched_yield` of a task. -/
def Tasks.yield (x : Tasks) : Tasks := x.wake.switchAway

/-- `mm_halow_sched_park` of a task. -/
def Tasks.park (timed : Bool) (wakeAt : UInt32) (x : Tasks) : Tasks :=
  (if timed && !reached wakeAt x.wakeAt then { x with wakeAt := wakeAt } else x).switchAway

/-- **`mm_halow_sched_run`**, up to its passes. -/
def Tasks.run (x : Tasks) : Tasks :=
  if x.running ∨ x.cur ≠ none then x
  else { x with running := true, pc := some .deadline, record := [] }

/-- The walk reaches a task. -/
def Pass.visit (t : TaskId) (ready : Bool) (r : Pass) : Pass :=
  { r with visits := r.visits ++ [(t, ready)] }

/-- A task has a turn. -/
def Pass.turn (t : TaskId) (r : Pass) : Pass := { r with turns := r.turns ++ [t] }

/-- The passes, of which the current one changes. -/
def inCurrent (f : Pass → Pass) : List Pass → List Pass
  | [] => []
  | r :: rs => f r :: rs

/-- **The passes of `mm_halow_sched_run`**, one step at a time; `none` in a task's turn. -/
def Tasks.body (cfg : Config) (x : Tasks) : RunPc → Option Tasks
  | .deadline =>
    some { x with deadline := tick x.now + cfg.budgetMs, pc := some (.passTest 0) }
  | .passTest pass =>
    some (if pass < cfg.passes ∧ x.passExpired = false then
      { x with pc := some (.clearWoken pass), record := ⟨[], []⟩ :: x.record }
    else { x with pc := some .reap })
  | .clearWoken pass => some { x with woken := false, pc := some (.resetWakeAt pass) }
  | .resetWakeAt pass => some { x.wakeAtReset with pc := some (.walk pass x.tab.links.head) }
  | .walk pass none => some { x with pc := some (.passEnd pass) }
  | .walk pass (some t) =>
    let ready := decide ((x.tab.slots t).state = .ready)
    some { x with
      pc := some (if ready then .setCur pass t else .walk pass (x.tab.links.next t))
      record := inCurrent (.visit t ready) x.record }
  | .setCur pass t => some { x with cur := some t, pc := some (.resume pass t) }
  | .resume pass t =>
    some { x with pc := some (.inTurn pass t), record := inCurrent (.turn t) x.record }
  | .inTurn _ _ => none
  | .clearCur pass t => some { x with cur := none, pc := some (.walk pass (x.tab.links.next t)) }
  | .passEnd pass => some { x with pc := some (if x.woken then .passTest (pass + 1) else .reap) }
  | .reap => (x.tab.reap cfg).map fun tab => { x with tab := tab, pc := some .finish }
  | .finish => some { x with running := false, pc := none }

/-- **`mm_halow_sched_deinit`.** -/
def Tasks.deinit (x : Tasks) : Tasks :=
  { x.wakeAtReset with
    tab := { x.tab with slots := fun _ => ⟨none, .ready⟩, links := ⟨none, fun _ => none⟩ }
    cur := none
    running := false
    owner := .none
    depth := 0
    woken := false }

/-! ## The system -/

/-- What happens next. -/
inductive TaskEvent where
  /-- Time passes. -/
  | time (dt : Nat)
  /-- An interrupt wakes the tasks. -/
  | irqWake
  | create (heap : Bool)
  | delete (t : Option TaskId)
  | run
  | deinit
  /-- The task that has its turn leaves it: it yields, parks or returns. -/
  | yield
  | park (timed : Bool) (wakeAt : UInt32)
  | ret
  /-- `mm_halow_sched_run` takes a step. -/
  | body
  deriving Repr, DecidableEq

/-- A task has its turn. -/
def Tasks.inTurn (x : Tasks) : Bool :=
  match x.pc with
  | some (.inTurn _ _) => true
  | _ => false

/-- Code may make a call: outside a run, or the task that has its turn. -/
def Tasks.mayCall (x : Tasks) : Bool := x.pc = none || x.inTurn

/-- **One step**; `none` where the event cannot happen. `mm_halow_sched_deinit` is called outside a
run. -/
def Tasks.step (cfg : Config) (x : Tasks) : TaskEvent → Option Tasks
  | .time dt => some { x with now := x.now + dt }
  | .irqWake => some x.wake
  | .create heap => if x.mayCall then (x.taskCreate cfg heap).map Prod.snd else none
  | .delete t => if x.mayCall then some (x.taskDelete t) else none
  | .run => if x.mayCall then some x.run else none
  | .deinit => if x.pc = none then some x.deinit else none
  | .yield => if x.inTurn then some x.yield else none
  | .park timed wakeAt => if x.inTurn then some (x.park timed wakeAt) else none
  | .ret => if x.inTurn then some (x.taskDelete none) else none
  | .body => x.pc.bind (x.body cfg)

/-- The step as a relation. -/
def TaskStep (cfg : Config) (x : Tasks) (e : TaskEvent) (y : Tasks) : Prop := x.step cfg e = some y

/-- The data at boot. -/
def Tasks.boot (now : Nat) : Tasks where
  tab := ⟨fun _ => ⟨none, .ready⟩, ⟨none, fun _ => none⟩, 0, [], []⟩
  cur := none
  woken := false
  wakeAt := 0
  running := false
  deadline := 0
  owner := .none
  depth := 0
  now := now
  pc := none
  record := []

/-! ## The list -/

/-- One slot's task was created before the other's. -/
def Table.Before (tab : Table) (t u : TaskId) : Prop :=
  ∀ a ∈ (tab.slots t).stack, ∀ b ∈ (tab.slots u).stack, a < b

/-- **The list is sound**: its links lead through `l` and end, and `l` holds the slots in use in the
order in which their tasks were created. -/
structure Listed (cfg : Config) (tab : Table) (l : List TaskId) : Prop where
  linked : Linked tab.links .head l
  mem : ∀ t, t ∈ l ↔ (tab.slots t).stack ≠ none
  order : l.Pairwise tab.Before
  small : ∀ t ∈ l, t < cfg.maxTasks
  /-- Stacks are numbered as they are allocated. -/
  fresh : ∀ t, ∀ b ∈ (tab.slots t).stack, b < tab.blocks

variable {cfg : Config} {tab tab' : Table} {l : List TaskId} {t u : TaskId}

theorem Listed.nodup (h : Listed cfg tab l) : l.Nodup := h.linked.nodup

/-- There are no more tasks than slots. -/
theorem Listed.length_le (h : Listed cfg tab l) : l.length ≤ cfg.maxTasks := by
  have hsub : l ⊆ List.range cfg.maxTasks := fun t ht => List.mem_range.mpr (h.small t ht)
  have hlen := (List.subperm_of_subset h.nodup hsub).length_le
  rwa [List.length_range] at hlen

/-- A stack belongs to one slot. -/
theorem Listed.stack_inj (h : Listed cfg tab l) {b : Nat} (ht : (tab.slots t).stack = some b)
    (hu : (tab.slots u).stack = some b) : t = u := by
  by_contra hne
  have htl : t ∈ l := (h.mem t).mpr (by rw [ht]; exact Option.some_ne_none b)
  have hul : u ∈ l := (h.mem u).mpr (by rw [hu]; exact Option.some_ne_none b)
  have hsymm : l.Pairwise fun t u => tab.Before t u ∨ tab.Before u t := h.order.imp .inl
  have : Std.Symm fun t u => tab.Before t u ∨ tab.Before u t := ⟨fun _ _ => Or.symm⟩
  rcases hsymm.forall htl hul hne with hb | hb
  · exact Nat.lt_irrefl b (hb b ht b hu)
  · exact Nat.lt_irrefl b (hb b hu b ht)

/-- The list is determined. -/
theorem Listed.unique {l' : List TaskId} (h : Listed cfg tab l) (h' : Linked tab.links .head l') :
    l' = l := h'.unique h.linked

/-! ### Creating -/

theorem freeSlot_spec (h : tab.freeSlot cfg = some t) :
    t < cfg.maxTasks ∧ (tab.slots t).stack = none := by
  unfold Table.freeSlot at h
  refine ⟨List.mem_range.mp (List.mem_of_find?_eq_some h), ?_⟩
  simpa using List.find?_some h

/-- Slots of the table keep their order where no stack of theirs changes. -/
theorem Before.congr (h : ∀ v ∈ l, (tab'.slots v).stack = (tab.slots v).stack)
    (hl : l.Pairwise tab.Before) : l.Pairwise tab'.Before :=
  hl.imp_of_mem fun ht hu hb a ha b hb' => hb a (h _ ht ▸ ha) b (h _ hu ▸ hb')

theorem setUp_stack_self : ((tab.setUp t).slots t).stack = some tab.blocks := by
  simp only [Table.setUp, Function.update_self]

theorem setUp_stack_of_ne (h : u ≠ t) : ((tab.setUp t).slots u).stack = (tab.slots u).stack := by
  simp only [Table.setUp, Function.update_of_ne h]

/-- **A task that is created is last on the list.** -/
theorem Listed.taskCreate (h : Listed cfg tab l) (ht : tab.freeSlot cfg = some t) :
    ∃ tab', (tab.setUp t).link cfg t = some tab' ∧ Listed cfg tab' (l ++ [t]) ∧
      tab'.slots = Function.update tab.slots t ⟨some tab.blocks, .ready⟩ ∧
      tab'.blocks = tab.blocks + 1 ∧ tab'.died = tab.died ∧ tab'.freed = tab.freed := by
  obtain ⟨hsmall, hfree⟩ := freeSlot_spec ht
  have hnot : t ∉ l := fun hmem => (h.mem t).mp hmem hfree
  have hcell : Cell.next t ∉ cells .head l := by
    simpa [cells] using hnot
  have hlinked : Linked (tab.setUp t).links .head l := h.linked.write hcell
  have hlast := hlinked.lastCell (Nat.lt_succ_of_le h.length_le)
  have hnext : (tab.setUp t).links.next t = none := read_write_self (d := .next t)
  have hlink : (tab.setUp t).link cfg t =
      some { tab.setUp t with links := (tab.setUp t).links.write (some t) (lastOf .head l) } :=
    congrArg (Option.map _) hlast
  refine ⟨_, hlink, ⟨?_, ?_, ?_, ?_, ?_⟩, rfl, rfl, rfl, rfl⟩
  · exact hlinked.append (nodup_cells h.nodup) hcell hnext
  · intro u
    change u ∈ l ++ [t] ↔ ((tab.setUp t).slots u).stack ≠ none
    by_cases hu : u = t
    · subst hu
      simp [setUp_stack_self]
    · simp only [List.mem_append, List.mem_singleton, hu, or_false, setUp_stack_of_ne hu]
      exact h.mem u
  · have hold : ∀ v ∈ l, ((tab.setUp t).slots v).stack = (tab.slots v).stack :=
      fun v hv => setUp_stack_of_ne fun hvt => hnot (hvt ▸ hv)
    refine List.pairwise_append.mpr ⟨Before.congr hold h.order, List.pairwise_singleton .., ?_⟩
    intro v hv w hw a ha b hb
    obtain rfl := List.mem_singleton.mp hw
    obtain rfl := Option.some.inj (setUp_stack_self.symm.trans hb)
    exact h.fresh v a ((hold v hv).symm.trans ha)
  · intro v hv
    rcases List.mem_append.mp hv with hv | hv
    · exact h.small v hv
    · exact List.mem_singleton.mp hv ▸ hsmall
  · intro v b hb
    by_cases hv : v = t
    · subst hv
      obtain rfl := Option.some.inj (setUp_stack_self.symm.trans hb)
      exact Nat.lt_succ_self _
    · exact Nat.lt_succ_of_lt (h.fresh v b ((setUp_stack_of_ne hv).symm.trans hb))

/-! ### Deleting -/

theorem markDead_stack (v : TaskId) :
    ((tab.markDead t).slots v).stack = (tab.slots v).stack := by
  unfold Table.markDead
  by_cases hv : v = t
  · subst hv
    simp only [Function.update_self]
  · simp only [Function.update_of_ne hv]

/-- **A task that is deleted stays on the list.** -/
theorem Listed.markDead (h : Listed cfg tab l) : Listed cfg (tab.markDead t) l where
  linked := h.linked
  mem u := by rw [markDead_stack]; exact h.mem u
  order := Before.congr (fun v _ => markDead_stack v) h.order
  small := h.small
  fresh u b hb := h.fresh u b (markDead_stack u ▸ hb)

/-! ### Reaping -/

/-- The slot's task is dead. -/
def Table.dead (tab : Table) (t : TaskId) : Bool := (tab.slots t).state = .dead

/-- What reaping `l` leaves of the slots, and what it frees. -/
structure Reaped (tab tab' : Table) (l : List TaskId) : Prop where
  slots : ∀ t, tab'.slots t =
    if t ∈ l ∧ tab.dead t then { tab.slots t with stack := none } else tab.slots t
  freed : tab'.freed = ((l.filter tab.dead).map fun t => (tab.slots t).stack).reverse ++ tab.freed
  died : tab'.died = tab.died
  blocks : tab'.blocks = tab.blocks

theorem drop_slots {prev : Cell TaskId} (v : TaskId) :
    (tab.drop prev t).slots v = if v = t then { tab.slots t with stack := none } else tab.slots v := by
  by_cases hv : v = t
  · subst hv
    rw [if_pos rfl]
    exact Function.update_self ..
  · rw [if_neg hv]
    exact Function.update_of_ne hv ..

theorem drop_dead {prev : Cell TaskId} : (tab.drop prev t).dead = tab.dead := by
  funext v
  unfold Table.dead
  rw [drop_slots]
  split_ifs with hv
  · rw [hv]
  · rfl

/-- A dead task that is unlinked is off the list. -/
theorem Listed.drop {as bs : List TaskId} (h : Listed cfg tab (as ++ t :: bs)) :
    Listed cfg (tab.drop (lastOf .head as) t) (as ++ bs) := by
  have hnot : t ∉ as ++ bs := by
    have := (List.nodup_middle.mp h.nodup)
    exact (List.nodup_cons.mp this).1
  have hstack {v : TaskId} (hv : v ≠ t) :
      ((tab.drop (lastOf .head as) t).slots v).stack = (tab.slots v).stack := by
    rw [drop_slots, if_neg hv]
  have hsub : (as ++ bs).Sublist (as ++ t :: bs) :=
    List.Sublist.append_left (List.sublist_cons_self t bs) as
  refine ⟨h.linked.remove (nodup_cells h.nodup), fun v => ?_, ?_,
    fun v hv => h.small v (hsub.subset hv), ?_⟩
  · by_cases hv : v = t
    · subst hv
      rw [drop_slots, if_pos rfl]
      exact iff_of_false hnot fun hne => hne rfl
    · rw [hstack hv, ← h.mem v]
      simp [hv]
  · refine Before.congr (fun v hv => hstack fun hvt => hnot (hvt ▸ hv)) ?_
    exact h.order.sublist hsub
  · intro v b hb
    by_cases hv : v = t
    · rw [hv, drop_slots, if_pos rfl] at hb
      exact nomatch hb
    · exact h.fresh v b (hstack hv ▸ hb)

/-- **The loop**, with `as` behind it and `bs` to come. -/
theorem Listed.reapLoop {n : Nat} {as bs : List TaskId} (h : Listed cfg tab (as ++ bs))
    (hn : bs.length ≤ n) : ∃ tab', tab.reapLoop n (lastOf .head as) bs.head? = some tab' ∧
      Listed cfg tab' (as ++ bs.filter fun t => !tab.dead t) ∧ Reaped tab tab' bs := by
  induction bs generalizing n as tab with
  | nil =>
    refine ⟨tab, by cases n <;> rfl, h, fun v => ?_, rfl, rfl, rfl⟩
    rw [if_neg fun hv => absurd hv.1 List.not_mem_nil]
  | cons t bs ih =>
    obtain ⟨m, rfl⟩ : ∃ m, n = m + 1 := ⟨n - 1, by simp at hn; omega⟩
    have hm : bs.length ≤ m := by simpa using hn
    have hnext : tab.links.next t = bs.head? := h.linked.next_eq
    have hnot : t ∉ bs := (List.nodup_cons.mp (List.nodup_append.mp h.nodup).2.1).1
    by_cases hdead : (tab.slots t).state = .dead
    · have hd : tab.dead t = true := decide_eq_true hdead
      obtain ⟨tab', hloop, hl, hr⟩ := ih h.drop hm
      refine ⟨tab', ?_, ?_, ?_, ?_, hr.died, hr.blocks⟩
      · simp only [List.head?_cons, Table.reapLoop, if_pos hdead, hnext]
        exact hloop
      · rw [drop_dead] at hl
        rw [List.filter_cons_of_neg (by simp [hd])]
        exact hl
      · intro v
        rw [hr.slots, drop_dead]
        by_cases hv : v = t
        · subst hv
          rw [if_neg fun hmem => hnot hmem.1, drop_slots, if_pos rfl,
            if_pos ⟨List.mem_cons_self, hd⟩]
        · rw [drop_slots, if_neg hv]
          simp [hv]
      · rw [hr.freed, drop_dead, List.filter_cons_of_pos hd, List.map_cons, List.reverse_cons,
          List.append_assoc]
        have hmap : ((bs.filter tab.dead).map fun v => ((tab.drop (lastOf .head as) t).slots v).stack) =
            (bs.filter tab.dead).map fun v => (tab.slots v).stack := by
          refine List.map_congr_left fun v hv => ?_
          have hvt : v ≠ t := fun hvt => hnot (hvt ▸ List.mem_of_mem_filter hv)
          rw [drop_slots, if_neg hvt]
        rw [hmap]
        rfl
    · have hd : tab.dead t = false := decide_eq_false hdead
      have h' : Listed cfg tab ((as ++ [t]) ++ bs) := by simpa using h
      obtain ⟨tab', hloop, hl, hr⟩ := ih h' hm
      rw [lastOf_append] at hloop
      refine ⟨tab', ?_, ?_, ?_, ?_, hr.died, hr.blocks⟩
      · simp only [List.head?_cons, Table.reapLoop, if_neg hdead, hnext]
        exact hloop
      · rw [List.filter_cons_of_pos (by simp [hd])]
        simpa using hl
      · intro v
        rw [hr.slots]
        by_cases hv : v = t
        · subst hv
          rw [if_neg fun hmem => hnot hmem.1, if_neg fun hmem => by simp [hd] at hmem]
        · simp [hv]
      · rw [hr.freed, List.filter_cons_of_neg (by simp [hd])]

/-- **The dead tasks leave the list** and give their stacks back. -/
theorem Listed.reap (h : Listed cfg tab l) : ∃ tab', tab.reap cfg = some tab' ∧
    Listed cfg tab' (l.filter fun t => !tab.dead t) ∧ Reaped tab tab' l := by
  have hall : Listed cfg tab ([] ++ l) := h
  have hloop := hall.reapLoop h.length_le
  rwa [← h.linked.read_eq] at hloop

/-! ## The list of `Machine` -/

/-- `g` has the table's tasks as a list. -/
structure Abstracts (x : Tasks) (g : Globals) : Prop where
  list : Linked x.tab.links .head g.taskList
  stack : ∀ t, (g.task t).stack = (x.tab.slots t).stack.isSome
  state : ∀ t, (g.task t).state = (x.tab.slots t).state
  cur : g.cur = x.cur
  woken : g.woken = x.woken
  wakeAt : g.wakeAt = x.wakeAt
  running : g.running = x.running
  deadline : g.deadline = x.deadline
  now : g.now = x.now

variable {x y : Tasks} {g : Globals}

/-- The link of a task is the next task of the list. -/
theorem Listed.nextTask (h : Listed cfg tab l) (ht : t ∈ l) : nextTask l t = tab.links.next t := by
  obtain ⟨as, bs, rfl⟩ := List.append_of_mem ht
  have hnot : ∀ u ∈ as, decide (u ≠ t) = true := by
    have hdis := (List.nodup_append.mp h.nodup).2.2
    exact fun u hu => decide_eq_true (hdis u hu t List.mem_cons_self)
  rw [h.linked.next_eq]
  unfold Sched.nextTask
  rw [List.dropWhile_append_of_pos hnot, List.dropWhile_cons_of_neg (by simp)]
  simp

/-- The task that the run is about to visit or has chosen. -/
def RunPc.taskOf : RunPc → Option TaskId
  | .walk _ o => o
  | .setCur _ t => some t
  | .resume _ t => some t
  | .inTurn _ t => some t
  | .clearCur _ t => some t
  | _ => none

/-- Reaping the table reaps the list. -/
theorem Abstracts.reap (h : Abstracts x g) (hl : Listed cfg x.tab g.taskList) {tab' : Table}
    (hreap : x.tab.reap cfg = some tab') :
    Abstracts { x with tab := tab', pc := some .finish } (Sched.reap g) := by
  obtain ⟨tab₁, h₁, hlisted, hr⟩ := hl.reap
  obtain rfl := Option.some.inj (h₁.symm.trans hreap)
  have hdead (t : TaskId) : x.tab.dead t = decide ((g.task t).state = .dead) := by
    rw [Table.dead, h.state]
  have hfilter : (Sched.reap g).taskList = g.taskList.filter fun t => !x.tab.dead t := by
    refine List.filter_congr fun t _ => ?_
    rw [hdead]
    cases (g.task t).state <;> rfl
  have hslots (t : TaskId) : ((Sched.reap g).task t).stack = (tab₁.slots t).stack.isSome ∧
      ((Sched.reap g).task t).state = (tab₁.slots t).state := by
    rw [hr.slots, hdead]
    unfold Sched.reap
    dsimp only
    simp only [decide_eq_true_eq]
    split_ifs
    · exact ⟨rfl, h.state t⟩
    · exact ⟨h.stack t, h.state t⟩
  refine { h with list := ?_, stack := fun t => (hslots t).1, state := fun t => (hslots t).2 }
  rw [hfilter]
  exact hlisted.linked

/-- **A step of `mm_halow_sched_run` along the links is the step of `bodyStep` on the list.** -/
theorem abstracts_body {pc : RunPc} (h : Abstracts x g) (hl : Listed cfg x.tab g.taskList)
    (hpc : x.pc = some pc) (hmem : ∀ t ∈ pc.taskOf, t ∈ g.taskList) (hy : x.body cfg pc = some y) :
    Abstracts y (bodyStep cfg g pc).1 ∧ y.pc = (bodyStep cfg g pc).2.map Body.pc := by
  have hticks : ticks g = tick x.now := congrArg tick h.now
  have hexp : passExpired g = x.passExpired := by
    simp only [passExpired, Tasks.passExpired, hticks, h.running, h.deadline]
  have hhead : g.taskList.head? = x.tab.links.head := h.list.read_eq.symm
  cases pc with
  | deadline =>
    obtain rfl := Option.some.inj hy
    refine ⟨{ h with deadline := ?_ }, rfl⟩
    exact congrArg (· + cfg.budgetMs) hticks
  | passTest pass =>
    simp only [Tasks.body, bodyStep, hexp] at hy ⊢
    by_cases hgo : pass < cfg.passes ∧ x.passExpired = false
    · rw [if_pos hgo] at hy ⊢
      obtain rfl := Option.some.inj hy
      exact ⟨{ h with }, rfl⟩
    · rw [if_neg hgo] at hy ⊢
      obtain rfl := Option.some.inj hy
      exact ⟨{ h with }, rfl⟩
  | clearWoken pass =>
    obtain rfl := Option.some.inj hy
    exact ⟨{ h with woken := rfl }, rfl⟩
  | resetWakeAt pass =>
    obtain rfl := Option.some.inj hy
    refine ⟨{ h with wakeAt := congrArg (int32Max + ·) hticks }, ?_⟩
    simp only [bodyStep, Option.map_some, hhead]
  | walk pass o =>
    cases o with
    | none =>
      obtain rfl := Option.some.inj hy
      exact ⟨{ h with }, rfl⟩
    | some t =>
      obtain rfl := Option.some.inj hy
      refine ⟨{ h with }, ?_⟩
      simp only [bodyStep, Option.map_some, h.state t, decide_eq_true_eq,
        hl.nextTask (hmem t rfl)]
  | setCur pass t =>
    obtain rfl := Option.some.inj hy
    exact ⟨{ h with cur := rfl }, rfl⟩
  | resume pass t =>
    obtain rfl := Option.some.inj hy
    exact ⟨{ h with }, rfl⟩
  | inTurn pass t => cases hy
  | clearCur pass t =>
    obtain rfl := Option.some.inj hy
    refine ⟨{ h with cur := rfl }, ?_⟩
    simp only [bodyStep, Option.map_some, hl.nextTask (hmem t rfl)]
  | passEnd pass =>
    obtain rfl := Option.some.inj hy
    refine ⟨{ h with }, ?_⟩
    simp only [bodyStep, Option.map_some, h.woken]
  | reap =>
    obtain ⟨tab', hreap, rfl⟩ := Option.map_eq_some_iff.mp hy
    exact ⟨h.reap hl hreap, rfl⟩
  | finish =>
    obtain rfl := Option.some.inj hy
    exact ⟨{ h with running := rfl }, rfl⟩

/-- The same slot is free. -/
theorem Abstracts.freeSlot (h : Abstracts x g) : Sched.freeSlot cfg g = x.tab.freeSlot cfg := by
  unfold Sched.freeSlot Table.freeSlot
  refine congrArg (List.find? · _) (funext fun t => ?_)
  rw [h.stack]
  cases (x.tab.slots t).stack <;> simp

/-- **Creating a task along the links is creating it on the list**, and it fails where that does. -/
theorem abstracts_taskCreate {heap r : Bool} (h : Abstracts x g) (hl : Listed cfg x.tab g.taskList)
    (hy : x.taskCreate cfg heap = some (r, y)) :
    if r then ∃ g', Sched.taskCreate cfg heap g = some g' ∧ Abstracts y (Sched.wake g')
    else Sched.taskCreate cfg heap g = none ∧ y = x := by
  unfold Tasks.taskCreate at hy
  unfold Sched.taskCreate
  rw [h.freeSlot]
  cases hfree : x.tab.freeSlot cfg with
  | none =>
    rw [hfree] at hy
    obtain ⟨rfl, rfl⟩ := Prod.mk.inj (Option.some.inj hy)
    exact ⟨rfl, rfl⟩
  | some t =>
    rw [hfree] at hy
    cases heap with
    | false =>
      obtain ⟨rfl, rfl⟩ := Prod.mk.inj (Option.some.inj hy)
      exact ⟨rfl, rfl⟩
    | true =>
      obtain ⟨tab₁, hlink, hlisted, hslots, -⟩ := hl.taskCreate hfree
      simp only [if_true, hlink, Option.map_some] at hy
      obtain ⟨rfl, rfl⟩ := Prod.mk.inj (Option.some.inj hy)
      refine ⟨_, rfl, ?_⟩
      refine { h with list := hlisted.linked, woken := rfl, stack := fun u => ?_, state := fun u => ?_ }
      · change _ = (tab₁.slots u).stack.isSome
        rw [hslots]
        by_cases hu : u = t
        · subst hu
          simp [Sched.wake, setTask]
        · simpa [Sched.wake, setTask, hu] using h.stack u
      · change _ = (tab₁.slots u).state
        rw [hslots]
        by_cases hu : u = t
        · subst hu
          simp [Sched.wake, setTask]
        · simpa [Sched.wake, setTask, hu] using h.state u

/-- Marking a task dead marks it on the list. -/
theorem abstracts_markDead (h : Abstracts x g) : Abstracts { x with tab := x.tab.markDead t }.wake
    (Sched.wake (setTask g t fun k => { k with state := .dead })) := by
  refine { h with woken := rfl, stack := fun u => ?_, state := fun u => ?_ }
  · change _ = ((x.tab.markDead t).slots u).stack.isSome
    rw [markDead_stack]
    by_cases hu : u = t
    · subst hu
      simpa [Sched.wake, setTask] using h.stack u
    · simpa [Sched.wake, setTask, hu] using h.stack u
  · by_cases hu : u = t
    · subst hu
      simp [Sched.wake, setTask, Tasks.wake, Table.markDead]
    · simpa [Sched.wake, setTask, Tasks.wake, Table.markDead, hu] using h.state u

end MmHalow.Sched
