import MmHalow.Sched.Current
import MmHalow.Sched.Objects

/-!
# What a wake is owed for (`mm_halow_sched_wake`)

A step of an operation that can make a waiting task's condition true, or give a task to run,
`stirs`; the wake is always the operation's next step, and a context that stands before it owes it
(`Machine.owes`). Every other step leaves the conditions that are false false (`Keeps`).

* `evalCond_keeps`, `microStep_keeps`: what an evaluation and a step of an operation leave.
* `frameStep_keeps`: **a step of a frame wakes, is left owing a wake, or keeps what parked tasks
  wait for.**
* `Resting`: the frames below the top of a stack, and those of a task that is parked, stand at a
  call.
-/

namespace MmHalow.Sched

open MmHalow.Lib MmHalow.Lib.Clock MmHalow.Osal

variable {cfg : Config} {x : Ctx} {o : Choice} {g g' : Globals} {f : Frame} {mv : Move}

/-! ## Conditions -/

/-- What a wait's condition comes to, its effect apart. -/
def Cond.holds (c : Cond) (g : Globals) : Bool :=
  match c with
  | .notified t => (g.task t).notify ≠ 0
  | .mutexAcquired m => !(g.mutex m).locked
  | .semTaken s => 0 < (g.sem s).count
  | .sembTaken s => g.semb s
  | .queuePopped q => 0 < (g.queue q).count
  | .queuePushed q _ => (g.queue q).count < (g.queue q).numItems
  | .isDead t => (g.task t).state = .dead

theorem evalCond_result (c : Cond) : (evalCond cfg c g).1 = c.holds g := by
  cases c with
  | notified t =>
    by_cases hn : (g.task t).notify = 0 <;> simp [evalCond, taskNotified, Cond.holds, hn]
  | mutexAcquired m =>
    cases hl : (g.mutex m).locked <;> simp [evalCond, Osal.mutexAcquired, Cond.holds, hl]
  | semTaken s =>
    by_cases hc : 0 < (g.sem s).count <;> simp [evalCond, Osal.semTaken, Cond.holds, hc]
  | queuePopped q =>
    by_cases hc : 0 < (g.queue q).count <;> simp [evalCond, queuePopFromIsr, Cond.holds, hc]
  | queuePushed q item =>
    by_cases hc : (g.queue q).count < (g.queue q).numItems <;>
      simp [evalCond, queuePushFromIsr, Cond.holds, hc]
  | _ => rfl

/-- **What a step that neither wakes nor owes a wake keeps**: the tasks with their stacks, and every
condition that is false. -/
structure Keeps (g g' : Globals) : Prop where
  taskList : g'.taskList = g.taskList
  sp : ∀ t, (g'.task t).sp = (g.task t).sp
  state : ∀ t, (g'.task t).state = (g.task t).state
  notify : ∀ t, (g.task t).notify = 0 → (g'.task t).notify = 0
  mutex : ∀ m, (g.mutex m).locked = true → (g'.mutex m).locked = true
  sem : ∀ s, (g.sem s).count = 0 → (g'.sem s).count = 0
  semb : ∀ s, g.semb s = false → g'.semb s = false
  count : ∀ q, (g'.queue q).count = (g.queue q).count
  numItems : ∀ q, (g'.queue q).numItems = (g.queue q).numItems

theorem Keeps.refl (g : Globals) : Keeps g g :=
  ⟨rfl, fun _ => rfl, fun _ => rfl, fun _ => id, fun _ => id, fun _ => id, fun _ => id, fun _ => rfl,
    fun _ => rfl⟩

/-- A false condition stays false. -/
theorem Keeps.holds (h : Keeps g g') {c : Cond} (hc : c.holds g = false) : c.holds g' = false := by
  cases c with
  | notified t =>
    have hz : (g.task t).notify = 0 := by simpa [Cond.holds] using hc
    simp [Cond.holds, h.notify t hz]
  | mutexAcquired m =>
    have hl : (g.mutex m).locked = true := by simpa [Cond.holds] using hc
    simp [Cond.holds, h.mutex m hl]
  | semTaken s =>
    have hz : (g.sem s).count = 0 := by
      simpa [Cond.holds, UInt32.pos_iff_ne_zero] using hc
    simp [Cond.holds, h.sem s hz]
  | sembTaken s => exact h.semb s hc
  | queuePopped q => simpa [Cond.holds, h.count q] using hc
  | queuePushed q item => simpa [Cond.holds, h.count q, h.numItems q] using hc
  | isDead t => simpa [Cond.holds, h.state t] using hc

/-- The words of the clock, the poll's own apart. -/
structure KeepsClock (g g' : Globals) : Prop where
  now : g'.now = g.now
  wakeAt : g'.wakeAt = g.wakeAt
  passAt : g'.passAt = g.passAt
  passed : g'.passed = g.passed
  polledAt : g'.polledAt = g.polledAt ∨ (pending g = false ∧ g'.polledAt = g.now)

theorem KeepsClock.refl (g : Globals) : KeepsClock g g := ⟨rfl, rfl, rfl, rfl, Or.inl rfl⟩

/-! ## Evaluations -/

/-- Storing in one object what keeps a property of it keeps the property of all. -/
theorem update_keeps {β : Type} {m : Nat → β} {P : β → β → Prop} {i : Nat} {b : β} (hrefl : ∀ a, P a a)
    (h : P (m i) b) (j : Nat) : P (m j) (Function.update m i b j) := by
  by_cases hj : j = i
  · subst hj
    rwa [Function.update_self]
  · rw [Function.update_of_ne hj]
    exact hrefl _

/-- **An evaluation keeps the other conditions**, unless it moves an item of a queue: then it wakes
itself. -/
theorem evalCond_keeps (c : Cond) (hc : c.wakes = true → c.holds g = false) :
    Keeps g (evalCond cfg c g).2 ∧ KeepsClock g (evalCond cfg c g).2 := by
  have hr := Keeps.refl g
  cases c with
  | notified t =>
    simp only [evalCond]
    split_ifs with hn
    · refine ⟨{ hr with sp := fun u => update_field Task.sp rfl
                        state := fun u => update_field Task.state rfl
                        notify := ?_ }, ⟨rfl, rfl, rfl, rfl, Or.inl rfl⟩⟩
      refine update_keeps (P := fun a b : Task => a.notify = 0 → b.notify = 0) (fun _ h => h) ?_
      intro hz
      simp [taskNotified, hz] at hn
    · exact ⟨hr, .refl g⟩
  | mutexAcquired m =>
    refine ⟨{ hr with mutex := ?_ }, ⟨rfl, rfl, rfl, rfl, Or.inl rfl⟩⟩
    refine update_keeps (P := fun a b : Mutex => a.locked = true → b.locked = true) (fun _ h => h) ?_
    intro hl
    simp [Osal.mutexAcquired, hl]
  | semTaken s =>
    simp only [evalCond]
    split_ifs with hn
    · refine ⟨{ hr with sem := ?_ }, ⟨rfl, rfl, rfl, rfl, Or.inl rfl⟩⟩
      refine update_keeps (P := fun a b : Sem => a.count = 0 → b.count = 0) (fun _ h => h) ?_
      intro hz
      simp [Osal.semTaken, hz] at hn
    · exact ⟨hr, .refl g⟩
  | sembTaken s =>
    refine ⟨{ hr with semb := ?_ }, ⟨rfl, rfl, rfl, rfl, Or.inl rfl⟩⟩
    exact update_keeps (P := fun a b : Bool => a = false → b = false) (fun _ h => h) fun _ => rfl
  | queuePopped q =>
    have hz : (g.queue q).count = 0 := by simpa [Cond.holds] using hc rfl
    simp only [evalCond, queuePopFromIsr, hz, Nat.lt_irrefl, if_false]
    exact ⟨hr, .refl g⟩
  | queuePushed q item =>
    have hz : ¬ (g.queue q).count < (g.queue q).numItems := by simpa [Cond.holds] using hc rfl
    simp only [evalCond, queuePushFromIsr, hz, if_false]
    exact ⟨hr, .refl g⟩
  | isDead t => exact ⟨hr, .refl g⟩

/-! ## Operations -/

/-- A step after which a waiting task's condition may be true, or a task may want a turn. -/
def Micro.stirs : Micro → Bool
  | .notify _ => true
  | .mutexUnlock _ => true
  | .semGive _ => true
  | .sembGive _ => true
  | .queuePush _ _ => true
  | .queuePop _ => true
  | .markDead _ => true
  | .create => true
  | _ => false

/-- The next step is the wake. -/
def owesWake (todo : List Micro) : Bool := todo.head? = some .wake

/-- **The steps of an operation**: what stirs is followed by the wake, and a task is left only
after one. -/
def OpOk : List Micro → Prop
  | [] => True
  | m :: rest =>
    (m.stirs = true → owesWake rest = true) ∧ (∀ u, rest.head? = some (.retire u) → m = .wake) ∧ OpOk rest

theorem Op.micros_ok (p : Op) : OpOk p.micros := by
  cases p with
  | taskDelete t => cases t <;> simp [Op.micros, OpOk, Micro.stirs, owesWake]
  | _ => simp [Op.micros, OpOk, Micro.stirs, owesWake]

/-- What is left of an operation after a step, and what the step did, where it is not the wake. -/
theorem microStep_keeps {m : Micro} {rest : List Micro} {heap : Bool} (h : OpOk (m :: rest)) :
    OpOk (microStep cfg heap m rest g).1 ∧
      ((microStep cfg heap m rest g).2.woken = true ∨
        owesWake (microStep cfg heap m rest g).1 = true ∨
        (Keeps g (microStep cfg heap m rest g).2 ∧ KeepsClock g (microStep cfg heap m rest g).2)) := by
  obtain ⟨hwake, -, hrest⟩ := h
  have hr := Keeps.refl g
  have hc := KeepsClock.refl g
  cases m with
  | wake => exact ⟨hrest, Or.inl rfl⟩
  | notify t => exact ⟨hrest, Or.inr (Or.inl (hwake rfl))⟩
  | mutexClearOwner m =>
    refine ⟨hrest, Or.inr (Or.inr ⟨{ hr with mutex := ?_ }, ⟨rfl, rfl, rfl, rfl, Or.inl rfl⟩⟩)⟩
    exact update_keeps (P := fun a b : Mutex => a.locked = true → b.locked = true) (fun _ h => h) id
  | mutexUnlock m => exact ⟨hrest, Or.inr (Or.inl (hwake rfl))⟩
  | semGive s =>
    simp only [microStep]
    split_ifs
    · exact ⟨hrest, Or.inr (Or.inl (hwake rfl))⟩
    · exact ⟨trivial, Or.inr (Or.inr ⟨hr, hc⟩)⟩
  | sembGive s => exact ⟨hrest, Or.inr (Or.inl (hwake rfl))⟩
  | queuePush q item =>
    simp only [microStep]
    split_ifs
    · exact ⟨hrest, Or.inr (Or.inl (hwake rfl))⟩
    · exact ⟨trivial, Or.inr (Or.inr ⟨hr, hc⟩)⟩
  | queuePop q =>
    simp only [microStep]
    split
    · exact ⟨hrest, Or.inr (Or.inl (hwake rfl))⟩
    · exact ⟨trivial, Or.inr (Or.inr ⟨hr, hc⟩)⟩
  | markDead t => exact ⟨hrest, Or.inr (Or.inl (hwake rfl))⟩
  | deleteSelf =>
    simp only [microStep]
    split
    · exact ⟨trivial, Or.inr (Or.inr ⟨hr, hc⟩)⟩
    · exact ⟨by simp [OpOk, Micro.stirs, owesWake], Or.inr (Or.inr ⟨hr, hc⟩)⟩
  | retire t => exact ⟨trivial, Or.inr (Or.inr ⟨hr, hc⟩)⟩
  | create =>
    simp only [microStep]
    split
    · exact ⟨trivial, Or.inr (Or.inr ⟨hr, hc⟩)⟩
    · exact ⟨hrest, Or.inr (Or.inl (hwake rfl))⟩
  | setTeardown b => exact ⟨hrest, Or.inr (Or.inr ⟨{ hr with }, ⟨rfl, rfl, rfl, rfl, Or.inl rfl⟩⟩)⟩
  | requestPoll => exact ⟨hrest, Or.inr (Or.inr ⟨{ hr with }, ⟨rfl, rfl, rfl, rfl, Or.inl rfl⟩⟩)⟩
  | pending =>
    simp only [microStep]
    split_ifs with hp
    · exact ⟨hrest, Or.inr (Or.inr ⟨hr, hc⟩)⟩
    · exact ⟨hrest, Or.inr (Or.inr ⟨{ hr with },
        ⟨rfl, rfl, rfl, rfl, Or.inr ⟨Bool.eq_false_iff.mpr hp, rfl⟩⟩⟩)⟩

/-! ## Frames -/

/-- The frame is an operation whose next step is the wake. -/
def Frame.owes : Frame → Bool
  | .op todo => owesWake todo
  | _ => false

/-- The frame that is on top after the move owes a wake. -/
def Move.owes : Move → Bool
  | .goto f => f.owes
  | .call _ callee => callee.owes
  | _ => false

/-- Operations are in order, and a timed wait is no longer than the longest. -/
def FrameOk (cfg : Config) : Frame → Prop
  | .op todo => OpOk todo
  | .wait _ _ w => w.pc = .cap ∨ w.forever = true ∨ w.timeoutMs ≤ cfg.waitMaxMs
  | _ => True

theorem waitFrame_limited {c : Cond} {evals : List Bool} {w : Wait}
    (h : FrameOk cfg (.wait c evals w)) :
    ∀ f' ∈ (waitFrame cfg g c evals w).2.frames, FrameOk cfg f' := by
  have hop : FrameOk cfg (.op [.wake]) := by simp [FrameOk, OpOk, Micro.stirs]
  obtain ⟨timeoutMs, forever, start, counted, pc, asked⟩ := w
  cases pc with
  | cap =>
    refine List.forall_mem_singleton.mpr (Or.inr ?_)
    by_cases hf : timeoutMs = waitForever
    · exact Or.inl (decide_eq_true hf)
    · right
      show (if _ then _ else _) ≤ _
      by_cases ht : timeoutMs > cfg.waitMaxMs
      · rw [if_pos ⟨ht, Or.inl hf⟩]
        exact UInt32.le_rfl
      · rw [if_neg fun h => ht h.1]
        exact UInt32.not_lt.mp ht
  | cond =>
    have hlim := h.resolve_left WaitPc.noConfusion
    intro f' hf'
    rcases (waitFrame_eval (Or.inl rfl)).2 f' hf' with rfl | rfl
    · cases hr : (evalCond cfg c g).1 <;> exact Or.inr hlim
    · exact hop
  | recheck =>
    have hlim := h.resolve_left WaitPc.noConfusion
    intro f' hf'
    rcases (waitFrame_eval (Or.inr rfl)).2 f' hf' with rfl | rfl
    · exact Or.inr hlim
    · exact hop
  | zero =>
    have hlim := h.resolve_left WaitPc.noConfusion
    by_cases ht : timeoutMs = 0
    · simp only [waitFrame, waitStep, if_pos ht]
      exact List.forall_mem_singleton.mpr (Or.inr hlim)
    · simp only [waitFrame, waitStep, if_neg ht]
      exact List.forall_mem_singleton.mpr (Or.inr hlim)
  | teardown =>
    have hlim := h.resolve_left WaitPc.noConfusion
    simp only [waitFrame, waitStep]
    cases g.teardown with
    | true => exact List.forall_mem_singleton.mpr (Or.inr (Or.inr UInt32.le_rfl))
    | false => exact List.forall_mem_cons.mpr ⟨trivial, List.forall_mem_singleton.mpr (Or.inr hlim)⟩
  | elapsed =>
    have hlim := h.resolve_left WaitPc.noConfusion
    by_cases ht : timeoutMs ≤ ticks g - start
    · simp only [waitFrame, waitStep, if_pos ht]
      exact List.forall_mem_singleton.mpr (Or.inr hlim)
    · simp only [waitFrame, waitStep, if_neg ht]
      exact List.forall_mem_cons.mpr ⟨trivial, List.forall_mem_singleton.mpr (Or.inr hlim)⟩
  | wake r =>
    have hlim := h.resolve_left WaitPc.noConfusion
    cases r with
    | true => exact List.forall_mem_singleton.mpr (Or.inr hlim)
    | false => exact fun f' hf' => absurd hf' List.not_mem_nil
  | leave r =>
    have hlim := h.resolve_left WaitPc.noConfusion
    simp only [waitFrame, waitStep]
    cases counted <;> exact List.forall_mem_singleton.mpr (Or.inr hlim)
  | counted =>
    have hlim := h.resolve_left WaitPc.noConfusion
    simp only [waitFrame, waitStep]
    cases decide (g.cur = none) <;> exact List.forall_mem_singleton.mpr (Or.inr hlim)
  | start => exact List.forall_mem_singleton.mpr (Or.inr (h.resolve_left WaitPc.noConfusion))
  | done => exact fun f' hf' => absurd hf' List.not_mem_nil

theorem frameOk_rule : FrameRule cfg (fun _ => True) (FrameOk cfg) where
  call c := by
    cases c with
    | op p => exact p.micros_ok
    | notifyWait => trivial
    | mutexGet => trivial
    | _ => first | trivial | exact Or.inl rfl
  resume r f h := by
    unfold resumeWith
    split
    · trivial
    · exact h
  save _ _ _ h := h
  step x o g f _ h := by
    refine frameStep_new (fun f' hw ho => ?_) (fun c timeoutMs => Or.inl rfl) Op.micros_ok
      (fun c evals w hf => ?_) fun m rest heap hf => ?_
    · cases f' with
      | wait c evals w => exact Bool.noConfusion hw
      | op todo => exact Bool.noConfusion ho
      | _ => trivial
    · subst hf
      exact waitFrame_limited h
    · subst hf
      exact (microStep_keeps h).1

/-- What a step leaves: the scheduler is woken, or about to be, or what parked tasks wait for is
kept. -/
def Leaves (g g' : Globals) (mv : Move) : Prop :=
  g'.woken = true ∨ mv.owes = true ∨ (Keeps g g' ∧ KeepsClock g g')

theorem waitFrame_leaves (c : Cond) (evals : List Bool) (w : Wait) :
    Leaves g (waitFrame cfg g c evals w).1 (waitFrame cfg g c evals w).2 := by
  have hk := Keeps.refl g
  simp only [waitFrame]
  split
  case h_2 =>
    -- an evaluation that moves an item of a queue is followed by its own wake
    by_cases hwakes : (evalCond cfg c g).1 = true ∧ c.wakes = true
    · rw [if_pos hwakes]
      exact Or.inr (Or.inl rfl)
    · refine Or.inr (Or.inr (evalCond_keeps c fun hcw => ?_))
      have hr : (evalCond cfg c g).1 = false := Bool.eq_false_iff.mpr fun hh => hwakes ⟨hh, hcw⟩
      exact (evalCond_result c).symm.trans hr
  case h_6 => exact Or.inl rfl
  all_goals exact Or.inr (Or.inr ⟨{ hk with }, ⟨rfl, rfl, rfl, rfl, Or.inl rfl⟩⟩)

theorem opStep_leaves {todo : List Micro} (h : OpOk todo) :
    Leaves g (opStep cfg o g todo).1 (opStep cfg o g todo).2 := by
  unfold opStep
  split
  · exact Or.inr (Or.inr ⟨.refl g, .refl g⟩)
  · exact Or.inr (Or.inr ⟨.refl g, .refl g⟩)
  · exact (microStep_keeps h).2

/-- **What a step of a frame leaves**, where it is not the store of a deadline. -/
theorem frameStep_leaves_woken (hf : FrameOk cfg f)
    (hd : ∀ timed w t, f ≠ .park timed w (.deadline t)) (h : frameStep cfg x o g f = (g', mv)) :
    Leaves g g' mv := by
  have hk := Keeps.refl g
  cases f with
  | wait c evals w =>
    obtain ⟨rfl, rfl⟩ := Prod.mk.inj h
    exact waitFrame_leaves c evals w
  | op todo =>
    obtain ⟨rfl, rfl⟩ := Prod.mk.inj h
    exact opStep_leaves hf
  | _ =>
    cases frameStep_touch h with
    | same => exact Or.inr (Or.inr ⟨hk, .refl g⟩)
    | claim =>
      unfold Sched.claim
      split_ifs
      · exact Or.inr (Or.inr ⟨{ hk with }, ⟨rfl, rfl, rfl, rfl, Or.inl rfl⟩⟩)
      · exact Or.inr (Or.inr ⟨hk, .refl g⟩)
    | release =>
      unfold Sched.release
      split
      · exact Or.inr (Or.inr ⟨{ hk with }, ⟨rfl, rfl, rfl, rfl, Or.inl rfl⟩⟩)
      · exact Or.inr (Or.inr ⟨hk, .refl g⟩)
    | wake => exact Or.inl rfl
    | polled hp => exact Or.inr (Or.inr ⟨{ hk with }, ⟨rfl, rfl, rfl, rfl, Or.inr ⟨hp, rfl⟩⟩⟩)
    | deadline hp => exact absurd hp (hd _ _ _)
    | cond hw => exact Frame.noConfusion hw
    | micro heap hp => exact Frame.noConfusion hp
    | _ => exact Or.inr (Or.inr ⟨{ hk with }, ⟨rfl, rfl, rfl, rfl, Or.inl rfl⟩⟩)

/-- **What a step of a stack leaves.** -/
theorem stackStep_leaves_woken {l : List Frame} {sm : StackMove} (hf : ∀ f ∈ l, FrameOk cfg f)
    (hd : ∀ timed w t rest, l ≠ .park timed w (.deadline t) :: rest)
    (h : stackStep cfg x o g l = (g', sm)) :
    g'.woken = true ∨ (∃ l', sm = .frames l' ∧ l'.head?.any Frame.owes = true) ∨
      (Keeps g g' ∧ KeepsClock g g') := by
  cases l with
  | nil =>
    obtain ⟨rfl, -⟩ := Prod.mk.inj h
    exact Or.inr (Or.inr ⟨.refl g, .refl g⟩)
  | cons f rest =>
    obtain rfl : (frameStep cfg x o g f).1 = g' := congrArg Prod.fst h
    obtain rfl : (frameStep cfg x o g f).2.onto rest = sm := congrArg Prod.snd h
    have hlv := frameStep_leaves_woken (hf f List.mem_cons_self)
      (fun timed w t he => hd timed w t rest (he ▸ rfl)) (Prod.eta (frameStep cfg x o g f)).symm
    rcases hlv with hw | ho | hk
    · exact Or.inl hw
    · refine Or.inr (Or.inl ?_)
      cases hm : (frameStep cfg x o g f).2 with
      | goto f' => exact ⟨f' :: rest, rfl, by rwa [hm] at ho⟩
      | call f' callee => exact ⟨callee :: f' :: rest, rfl, by rwa [hm] at ho⟩
      | _ =>
        rw [hm] at ho
        exact Bool.noConfusion ho
    · exact Or.inr (Or.inr hk)

/-! ## The flag stays up -/

theorem evalCond_woken (c : Cond) : (evalCond cfg c g).2.woken = g.woken := by
  cases c with
  | notified t =>
    simp only [evalCond]
    split_ifs <;> rfl
  | semTaken s =>
    simp only [evalCond]
    split_ifs <;> rfl
  | queuePopped q =>
    simp only [evalCond]
    split <;> rfl
  | queuePushed q item =>
    simp only [evalCond]
    split_ifs <;> rfl
  | _ => rfl

theorem microStep_woken (m : Micro) (rest : List Micro) (heap : Bool) (h : g.woken = true) :
    (microStep cfg heap m rest g).2.woken = true := by
  cases m with
  | wake => rfl
  | semGive s =>
    simp only [microStep]
    split_ifs <;> exact h
  | queuePush q item =>
    simp only [microStep]
    split_ifs <;> exact h
  | queuePop q =>
    simp only [microStep]
    split <;> exact h
  | deleteSelf =>
    simp only [microStep]
    split <;> exact h
  | create =>
    simp only [microStep]
    split
    · exact h
    · next hc =>
      obtain ⟨t, -, rfl⟩ := taskCreate_cases hc
      exact h
  | pending =>
    simp only [microStep]
    split_ifs <;> exact h
  | _ => exact h

/-- No step of a frame clears the flag. -/
theorem frameStep_woken (h : frameStep cfg x o g f = (g', mv)) (hw : g.woken = true) :
    g'.woken = true := by
  cases frameStep_touch h with
  | claim =>
    unfold Sched.claim
    split_ifs <;> exact hw
  | release =>
    unfold Sched.release
    split <;> exact hw
  | wake => rfl
  | cond => exact (evalCond_woken _).trans hw
  | micro => exact microStep_woken _ _ _ hw
  | _ => exact hw

theorem stackStep_woken {l : List Frame} {sm : StackMove} (h : stackStep cfg x o g l = (g', sm))
    (hw : g.woken = true) : g'.woken = true := by
  cases l with
  | nil =>
    obtain ⟨rfl, -⟩ := Prod.mk.inj h
    exact hw
  | cons f rest =>
    obtain ⟨rfl, -⟩ := Prod.mk.inj h
    exact frameStep_woken (Prod.eta (frameStep cfg x o g f)).symm hw

theorem owesWake_cons {todo : List Micro} (h : owesWake todo = true) :
    ∃ rest, todo = .wake :: rest := by
  cases todo with
  | nil => exact Bool.noConfusion h
  | cons m rest =>
    have hm : m = .wake := by simpa [owesWake] using h
    exact ⟨rest, hm ▸ rfl⟩

/-- What owes a wake makes it next. -/
theorem stackStep_owing {l : List Frame} {sm : StackMove} (h : stackStep cfg x o g l = (g', sm))
    (ho : l.head?.any Frame.owes = true) : g'.woken = true := by
  cases l with
  | nil => exact Bool.noConfusion ho
  | cons f rest =>
    obtain ⟨rfl, -⟩ := Prod.mk.inj h
    cases f with
    | op todo =>
      obtain ⟨rest', rfl⟩ := owesWake_cons ho
      rfl
    | _ => exact Bool.noConfusion ho

/-! ## Frames below the top -/

/-- A frame that stands at a call it has made. -/
def Resting : Frame → Prop
  | .poll _ => True
  | .yield pc => pc = .inRun ∨ pc = .hook
  | .wait _ _ w => w.pc = .cond ∨ w.pc = .leave true
  | .mutexGet _ _ _ => True
  | .region _ => True
  | _ => False

theorem codeStep_resting {here f' callee : Frame} {fin : Move}
    (h : codeStep o here fin = .call f' callee) (hh : Resting here)
    (hfin : fin ≠ .call f' callee) : Resting f' := by
  unfold codeStep at h
  split at h
  · obtain ⟨rfl, -⟩ := Move.call.inj h
    exact hh
  · exact absurd h hfin

/-- A frame that calls rests. -/
theorem frameStep_resting {f' callee : Frame} (h : (frameStep cfg x o g f).2 = .call f' callee) :
    Resting f' := by
  cases f with
  | poll pc =>
    cases pc with
    | irqs => exact codeStep_resting h trivial Move.noConfusion
    | timers => exact codeStep_resting h trivial Move.noConfusion
    | initted =>
      simp only [frameStep, pollStep] at h
      split_ifs at h
    | current =>
      simp only [frameStep, pollStep] at h
      split_ifs at h
    | schedPending =>
      simp only [frameStep, pollStep] at h
      split_ifs at h
    | run =>
      obtain ⟨rfl, -⟩ := Move.call.inj h
      trivial
    | _ => exact Move.noConfusion h
  | yield pc =>
    cases pc with
    | run =>
      obtain ⟨rfl, -⟩ := Move.call.inj h
      exact Or.inl rfl
    | hook =>
      simp only [frameStep, yieldStep] at h
      split_ifs at h
      exact codeStep_resting h (Or.inr rfl) Move.noConfusion
    | _ => exact Move.noConfusion h
  | park timed wakeAt pc =>
    cases pc with
    | current =>
      simp only [frameStep, parkStep] at h
      split at h <;> exact Move.noConfusion h
    | _ => exact Move.noConfusion h
  | run pc =>
    cases pc with
    | check =>
      simp only [frameStep, runEntryStep] at h
      split_ifs at h
    | set => exact Move.noConfusion h
  | wait c evals w =>
    obtain ⟨timeoutMs, forever, start, counted, pc, asked⟩ := w
    cases pc with
    | cond =>
      simp only [frameStep, waitFrame, waitStep] at h
      split_ifs at h with he
      obtain ⟨rfl, -⟩ := Move.call.inj h
      simp [Resting, waitCond, he.1]
    | recheck =>
      simp only [frameStep, waitFrame, waitStep] at h
      split_ifs at h with he
      obtain ⟨rfl, -⟩ := Move.call.inj h
      simp [Resting, waitCond, he.1]
    | zero =>
      simp only [frameStep, waitFrame, waitStep] at h
      split_ifs at h
    | teardown =>
      cases ht : g.teardown with
      | true =>
        simp only [frameStep, waitFrame, waitStep, ht, if_true] at h
        exact Move.noConfusion h
      | false =>
        simp only [frameStep, waitFrame, waitStep, ht] at h
        obtain ⟨rfl, -⟩ := Move.call.inj h
        exact Or.inl rfl
    | elapsed =>
      by_cases ht : timeoutMs ≤ ticks g - start
      · simp only [frameStep, waitFrame, waitStep, if_pos ht] at h
        exact Move.noConfusion h
      · simp only [frameStep, waitFrame, waitStep, if_neg ht] at h
        obtain ⟨rfl, -⟩ := Move.call.inj h
        exact Or.inl rfl
    | counted =>
      simp only [frameStep, waitFrame, waitStep] at h
      split_ifs at h
    | leave r =>
      simp only [frameStep, waitFrame, waitStep] at h
      split_ifs at h
    | wake r =>
      simp only [frameStep, waitFrame, waitStep] at h
      split_ifs at h
    | _ => exact Move.noConfusion h
  | notifyWait timeoutMs =>
    simp only [frameStep, notifyWaitStep] at h
    split at h <;> exact Move.noConfusion h
  | mutexGet m timeoutMs pc =>
    cases pc with
    | enter =>
      simp only [frameStep, mutexGetStep] at h
      split_ifs at h
      obtain ⟨rfl, -⟩ := Move.call.inj h
      trivial
    | _ => exact Move.noConfusion h
  | op todo =>
    simp only [frameStep] at h
    unfold opStep at h
    split at h <;> exact Move.noConfusion h
  | region pc =>
    cases pc with
    | inside => exact codeStep_resting h trivial Move.noConfusion
    | _ => exact Move.noConfusion h

/-- The frames below the top rest. -/
def TailRests (l : List Frame) : Prop := ∀ f ∈ l.tail, Resting f

theorem Resting.resume {r : Bool} (h : Resting f) : Resting (resumeWith r f) := by
  unfold resumeWith
  split
  · trivial
  · exact h

/-- **The frames below the top stay at their calls**; what a switch saves rests altogether. -/
theorem TailRests.step {l : List Frame} {sm : StackMove} (hl : TailRests l)
    (h : stackStep cfg x o g l = (g', sm)) :
    TailRests sm.stay ∧ ∀ t rest, sm = .switch t rest → ∀ f ∈ rest, Resting f := by
  obtain rfl : (stackStep cfg x o g l).2 = sm := congrArg Prod.snd h
  cases l with
  | nil =>
    unfold stackStep
    cases o.call with
    | none => exact ⟨fun f hf => absurd hf List.not_mem_nil, fun _ _ he => StackMove.noConfusion he⟩
    | some c => exact ⟨fun f hf => absurd hf List.not_mem_nil, fun _ _ he => StackMove.noConfusion he⟩
  | cons f rest =>
    have hrest : ∀ f ∈ rest, Resting f := hl
    have htail : TailRests rest := fun f hf => hrest f (List.mem_of_mem_tail hf)
    simp only [stackStep]
    cases hmv : (frameStep cfg x o g f).2 with
    | goto f' => exact ⟨hrest, fun _ _ he => StackMove.noConfusion he⟩
    | call f' callee =>
      exact ⟨List.forall_mem_cons.mpr ⟨frameStep_resting hmv, hrest⟩,
        fun _ _ he => StackMove.noConfusion he⟩
    | ret r =>
      refine ⟨?_, fun _ _ he => StackMove.noConfusion he⟩
      cases rest with
      | nil => exact fun f hf => absurd hf List.not_mem_nil
      | cons f' rest => exact htail
    | switch t =>
      refine ⟨htail, fun _ _ he => ?_⟩
      obtain ⟨-, rfl⟩ := StackMove.switch.inj he
      exact hrest
    | retire t => exact ⟨fun f hf => absurd hf List.not_mem_nil, fun _ _ he => StackMove.noConfusion he⟩
    | enter => exact ⟨htail, fun _ _ he => StackMove.noConfusion he⟩

/-! ## The machine -/

/-- The context stands before a wake. -/
def Context.owes (c : Context) : Bool := c.executing.head?.any Frame.owes

/-- **An operation has taken effect and its wake is still to come.** -/
def Machine.owes (s : Machine) : Bool :=
  s.isrs.any owesWake || s.thread.owes || s.pendsv.any Context.owes

/-- The stacks of the machine below their tops. -/
structure Rests (s : Machine) : Prop where
  saved : ∀ t, ∀ f ∈ (s.g.task t).sp, Resting f
  thread : ∀ b, s.thread.body = some b → TailRests b.frames
  pendsv : ∀ c b, s.pendsv = some c → c.body = some b → TailRests b.frames

theorem Resting.tail {l : List Frame} (h : ∀ f ∈ l, Resting f) : TailRests l :=
  fun f hf => h f (List.mem_of_mem_tail hf)

theorem rests_context {c : Context} {c' : Option Context} (hsp : ∀ t, ∀ f ∈ (g.task t).sp, Resting f)
    (hb : ∀ b, c.body = some b → TailRests b.frames) (h : c.step cfg x o g = (g', c')) :
    (∀ t, ∀ f ∈ (g'.task t).sp, Resting f) ∧
      ∀ d, c' = some d → ∀ b, d.body = some b → TailRests b.frames := by
  have hnone : TailRests [] := fun f hf => absurd hf List.not_mem_nil
  cases Context.step_cases h with
  | frames _ hst =>
    refine ⟨saved_stack hsp hst, fun d hd b hb => ?_⟩
    obtain rfl := Option.some.inj hd
    exact absurd hb (Option.some_ne_none b).symm
  | enter _ hst =>
    refine ⟨saved_stack hsp hst, fun d hd b hb => ?_⟩
    obtain rfl := Option.some.inj hd
    obtain rfl := Option.some.inj hb
    exact hnone
  | finished _ hst => exact ⟨saved_stack hsp hst, fun d hd => absurd hd (Option.some_ne_none d).symm⟩
  | stuck => exact ⟨hsp, fun d hd => Option.some.inj hd ▸ hb⟩
  | turn hbody hst =>
    refine ⟨saved_stack hsp hst, fun d hd b hb' => ?_⟩
    obtain rfl := Option.some.inj hd
    obtain rfl := Option.some.inj hb'
    exact ((hb _ hbody).step hst).1
  | returned hbody hst =>
    refine ⟨saved_stack hsp hst, fun d hd b hb' => ?_⟩
    obtain rfl := Option.some.inj hd
    obtain rfl := Option.some.inj hb'
    exact fun f hf => absurd hf List.not_mem_nil
  | switch hbody hst =>
    refine ⟨saved_save (saved_stack hsp hst) (((hb _ hbody).step hst).2 _ _ rfl), fun d hd b hb' => ?_⟩
    obtain rfl := Option.some.inj hd
    obtain rfl := Option.some.inj hb'
    exact hnone
  | retire hbody hst =>
    refine ⟨saved_save (saved_stack hsp hst) fun f hf => absurd hf List.not_mem_nil,
      fun d hd b hb' => ?_⟩
    obtain rfl := Option.some.inj hd
    obtain rfl := Option.some.inj hb'
    exact hnone
  | body hbody _ =>
    refine ⟨fun t f hf => ?_, fun d hd b hb' => ?_⟩
    · rw [bodyStep_sp] at hf
      exact hsp t f hf
    · obtain rfl := Option.some.inj hd
      exact Resting.tail (bodyStep_frames hsp hb')

variable {s u : Machine} {e : Event}

theorem Rests.step (h : Rests s) (hs : Step cfg s e u) : Rests u := by
  cases hs.cases with
  | isr => exact ⟨h.saved, h.thread, h.pendsv⟩
  | isrDone => exact ⟨h.saved, h.thread, h.pendsv⟩
  | @isrStep o m todo =>
    refine ⟨fun t f hf => ?_, h.thread, h.pendsv⟩
    have hsp : ((microStep cfg o.heap m todo (advance o.dt s.g)).2.task t).sp = (s.g.task t).sp ∨
        ((microStep cfg o.heap m todo (advance o.dt s.g)).2.task t).sp = [] :=
      microStep_sp m todo o.heap t
    rcases hsp with ht | ht
    · exact h.saved t f (ht ▸ hf)
    · rw [ht] at hf
      exact absurd hf List.not_mem_nil
  | dispatch =>
    refine ⟨h.saved, h.thread, fun c b hc hb => ?_⟩
    obtain rfl := Option.some.inj hc
    exact absurd hb (Option.some_ne_none b).symm
  | @pendsv o c g' c' _ hp hc =>
    obtain ⟨hsp, hbody⟩ := rests_context (g := advance o.dt s.g) h.saved (fun b => h.pendsv c b hp) hc
    exact ⟨hsp, h.thread, fun d b hd => hbody d hd b⟩
  | @thread o g' c' _ hp hc =>
    obtain ⟨hsp, hbody⟩ := rests_context (g := advance o.dt s.g) h.saved h.thread hc
    refine ⟨hsp, ?_, fun d b hd => absurd (hp.symm.trans hd) (Option.some_ne_none d).symm⟩
    cases c' with
    | none => exact fun b hb => absurd hb (Option.some_ne_none b).symm
    | some d => exact hbody d rfl

/-- The operations of the interrupts are in order. -/
def IsrsOk (s : Machine) : Prop := ∀ todo ∈ s.isrs, OpOk todo

theorem IsrsOk.step (h : IsrsOk s) (hs : Step cfg s e u) : IsrsOk u := by
  cases hs.cases with
  | @isr p => exact List.forall_mem_cons.mpr ⟨p.micros_ok, h⟩
  | isrDone hi =>
    unfold IsrsOk at h
    rw [hi] at h
    exact (List.forall_mem_cons.mp h).2
  | isrStep hi =>
    unfold IsrsOk at h
    rw [hi] at h
    obtain ⟨htop, hrest⟩ := List.forall_mem_cons.mp h
    exact List.forall_mem_cons.mpr ⟨(microStep_keeps htop).1, hrest⟩
  | _ => exact h

/-- Outside the turns of thread context no frame of a context has looked at a current task. -/
structure Aside (s : Machine) : Prop where
  thread : ∀ f ∈ s.thread.frames, OuterFrame f
  pendsv : ∀ c, s.pendsv = some c → bodyCur s.thread.body = none → ∀ f ∈ c.frames, OuterFrame f

/-- The own frames of a context, where no task is current while it executes them. -/
theorem outer_context {c : Context} {c' : Option Context} (hcur : c.body = none → g.cur = none)
    (hfr : ∀ f ∈ c.frames, OuterFrame f) (h : c.step cfg x o g = (g', c')) :
    ∀ d, c' = some d → ∀ f ∈ d.frames, OuterFrame f := by
  intro d hd
  cases Context.step_cases h with
  | frames hb hm =>
    obtain rfl := Option.some.inj hd
    exact stackStep_all hm OuterFrame.call (fun _ _ hf => hf.resume) (fun _ _ hf => hf.step (hcur hb)) hfr
  | enter hb hm =>
    obtain rfl := Option.some.inj hd
    exact stackStep_all hm OuterFrame.call (fun _ _ hf => hf.resume) (fun _ _ hf => hf.step (hcur hb)) hfr
  | finished => exact absurd hd (Option.some_ne_none d).symm
  | _ =>
    obtain rfl := Option.some.inj hd
    exact hfr

theorem Aside.step (hctl : Control s) (h : Aside s) (hs : Step cfg s e u) : Aside u := by
  unfold Control at hctl
  cases hs.cases with
  | isr => exact ⟨h.thread, h.pendsv⟩
  | isrDone => exact ⟨h.thread, h.pendsv⟩
  | isrStep => exact ⟨h.thread, h.pendsv⟩
  | dispatch =>
    refine ⟨h.thread, fun c hc _ f hf => ?_⟩
    obtain rfl := Option.some.inj hc
    exact absurd hf List.not_mem_nil
  | @pendsv o c g' c' _ hp hc =>
    rw [hp] at hctl
    refine ⟨h.thread, fun d hd hb => ?_⟩
    refine outer_context (g := advance o.dt s.g) (fun hbody => ?_) (h.pendsv c hp hb) hc d hd
    have hcur : s.g.cur = (bodyCur c.body).or (bodyCur s.thread.body) := hctl.1.cur
    rwa [hbody, hb] at hcur
  | @thread o g' c' _ hp hc =>
    rw [hp] at hctl
    refine ⟨?_, fun d hd => absurd (hp.symm.trans hd) (Option.some_ne_none d).symm⟩
    cases c' with
    | none => exact fun f hf => absurd hf List.not_mem_nil
    | some d =>
      refine outer_context (g := advance o.dt s.g) (fun hbody => ?_) h.thread hc d rfl
      have hcur : s.g.cur = (bodyCur s.thread.body).or (bodyCur none) := hctl.cur
      rwa [hbody] at hcur

/-- **What holds of the frames in every reachable state.** -/
structure Framed (cfg : Config) (s : Machine) : Prop where
  control : Control s
  frames : AllFrames (FrameOk cfg) s
  isrs : IsrsOk s
  rests : Rests s
  aside : Aside s

theorem Framed.step (h : Framed cfg s) (hs : Step cfg s e u) : Framed cfg u where
  control := h.control.step hs
  frames := hs.frames frameOk_rule trivial h.frames
  isrs := h.isrs.step hs
  rests := h.rests.step hs
  aside := h.aside.step h.control hs

variable {now : Nat} {mutex : Nat → Mutex} {sem : Nat → Sem} {semb : Nat → Bool}
  {queue : Nat → Queue}

theorem Framed.boot : Framed cfg (boot (bootGlobals now mutex sem semb queue)) where
  control := .boot
  frames := .boot _ fun _ => rfl
  isrs _ h := absurd h List.not_mem_nil
  rests := ⟨fun _ _ hf => absurd hf List.not_mem_nil, fun b hb => absurd hb (Option.some_ne_none b).symm,
    fun c _ hc => absurd hc (Option.some_ne_none c).symm⟩
  aside := ⟨fun _ hf => absurd hf List.not_mem_nil, fun c hc => absurd hc (Option.some_ne_none c).symm⟩

end MmHalow.Sched
