import MmHalow.Sched.Machine

/-!
# Who runs what

`Control` is what holds in every reachable state of the machine, however PendSV cuts in: at most
one context is inside `mm_halow_sched_run`, `mm_halow_sched_running` tells whether one is, and
`mm_halow_task_cur` is the task that context runs. Frames on a task's stack never reach the part
of the poll or of a yield that serves the transceiver (`TaskFrame`).

* `frameStep_touch`: what a step of a frame does to the globals.
* `CtxOk.step`: a step of a context keeps who runs what.
* `Control.step`, `Control.run`: **so does every step of the machine, and every run from boot.**
-/

namespace MmHalow.Sched

open MmHalow.Lib MmHalow.Lib.Clock MmHalow.Osal

/-! ## What operations and conditions leave alone -/

/-- The words that control the scheduler. -/
structure Ctl where
  cur : Option TaskId
  running : Bool
  owner : Owner
  depth : UInt8
  deriving DecidableEq

def ctl (g : Globals) : Ctl := ⟨g.cur, g.running, g.owner, g.depth⟩

variable {cfg : Config} {x : Ctx} {o : Choice} {g g' : Globals} {f : Frame} {mv : Move}

theorem evalCond_ctl (c : Cond) : ctl (evalCond cfg c g).2 = ctl g := by
  cases c with
  | notified t =>
    simp only [evalCond]
    split_ifs <;> rfl
  | semTaken s =>
    simp only [evalCond]
    split_ifs <;> rfl
  | queuePopped q =>
    simp only [evalCond]
    split <;> rfl
  | queuePushed q item =>
    simp only [evalCond]
    split_ifs <;> rfl
  | _ => rfl

/-- A saved stack changes only where a slot gets a new task. -/
theorem evalCond_sp (c : Cond) (t : TaskId) :
    ((evalCond cfg c g).2.task t).sp = (g.task t).sp := by
  cases c with
  | notified u =>
    simp only [evalCond]
    split_ifs
    · exact update_field Task.sp rfl
    · rfl
  | semTaken s =>
    simp only [evalCond]
    split_ifs <;> rfl
  | queuePopped q =>
    simp only [evalCond]
    split <;> rfl
  | queuePushed q item =>
    simp only [evalCond]
    split_ifs <;> rfl
  | _ => rfl

theorem taskCreate_ctl {heap : Bool} (h : taskCreate cfg heap g = some g') : ctl g' = ctl g := by
  obtain ⟨t, -, rfl⟩ := taskCreate_cases h
  rfl

theorem microStep_ctl (m : Micro) (rest : List Micro) (heap : Bool) :
    ctl (microStep cfg heap m rest g).2 = ctl g := by
  cases m with
  | semGive s =>
    simp only [microStep]
    split_ifs <;> rfl
  | queuePush q item =>
    simp only [microStep]
    split_ifs <;> rfl
  | queuePop q =>
    simp only [microStep]
    split <;> rfl
  | deleteSelf =>
    simp only [microStep]
    split <;> rfl
  | create =>
    simp only [microStep]
    split
    · rfl
    · next h => exact taskCreate_ctl h
  | pending =>
    simp only [microStep]
    split_ifs <;> rfl
  | _ => rfl

theorem microStep_sp (m : Micro) (rest : List Micro) (heap : Bool) (t : TaskId) :
    ((microStep cfg heap m rest g).2.task t).sp = (g.task t).sp ∨
      ((microStep cfg heap m rest g).2.task t).sp = [] := by
  cases m with
  | notify u => exact Or.inl (update_field Task.sp rfl)
  | markDead u => exact Or.inl (update_field Task.sp rfl)
  | semGive s =>
    simp only [microStep]
    split_ifs <;> exact Or.inl rfl
  | queuePush q item =>
    simp only [microStep]
    split_ifs <;> exact Or.inl rfl
  | queuePop q =>
    simp only [microStep]
    split <;> exact Or.inl rfl
  | deleteSelf =>
    simp only [microStep]
    split <;> exact Or.inl rfl
  | create =>
    simp only [microStep]
    split
    · exact Or.inl rfl
    · next h =>
      obtain ⟨u, -, rfl⟩ := taskCreate_cases h
      by_cases ht : t = u
      · right
        simp only [ht, Function.update_self]
      · left
        simp only [Function.update_of_ne ht]
  | pending =>
    simp only [microStep]
    split_ifs <;> exact Or.inl rfl
  | _ => exact Or.inl rfl

/-! ## One step of a frame -/

/-- **What a step of a frame does to the globals.** -/
inductive Touch (cfg : Config) (x : Ctx) (g : Globals) (f : Frame) : Globals → Prop
  | same : Touch cfg x g f g
  | claim : Touch cfg x g f (claim x g).2
  | release : Touch cfg x g f (release g)
  | enter : f = .run .set → Touch cfg x g f { g with running := true }
  | wake : Touch cfg x g f (wake g)
  | polled : pending g = false → Touch cfg x g f { g with polledAt := g.now }
  | request : Touch cfg x g f { g with pollRequested := false }
  | deadline {timed : Bool} {w : UInt32} {t : TaskId} : f = .park timed w (.deadline t) →
      timed = true → reached w g.wakeAt = false → Touch cfg x g f { g with wakeAt := w }
  | waitDepth (n : UInt16) : Touch cfg x g f { g with waitDepth := n }
  | cond {c : Cond} {evals : List Bool} {w : Wait} : f = .wait c evals w →
      Touch cfg x g f (evalCond cfg c g).2
  | micro {m : Micro} {todo : List Micro} (heap : Bool) : f = .op (m :: todo) →
      Touch cfg x g f (microStep cfg heap m todo g).2

theorem frameStep_touch (h : frameStep cfg x o g f = (g', mv)) : Touch cfg x g f g' := by
  obtain rfl := congrArg Prod.fst h
  cases f with
  | poll pc =>
    cases pc with
    | schedPending =>
      simp only [frameStep, pollStep]
      split_ifs with hp
      · exact .same
      · exact .polled (Bool.eq_false_iff.mpr hp)
    | claim => exact .claim
    | quietRelease => exact .release
    | release => exact .release
    | request => exact .request
    | _ => exact .same
  | yield pc =>
    cases pc with
    | claim => exact .claim
    | release => exact .release
    | woken t => exact .wake
    | _ => exact .same
  | park timed wakeAt pc =>
    cases pc with
    | deadline t =>
      simp only [frameStep, parkStep]
      split_ifs with hd
      · simp only [Bool.and_eq_true, Bool.not_eq_true'] at hd
        exact .deadline rfl hd.1 hd.2
      · exact .same
    | _ => exact .same
  | run pc =>
    cases pc with
    | check => exact .same
    | set => exact .enter rfl
  | wait c evals w =>
    simp only [frameStep, waitFrame]
    split
    · exact .same
    · exact .cond rfl
    · exact .same
    · exact .waitDepth _
    · exact .waitDepth _
    · exact .wake
    · exact .same
  | notifyWait timeoutMs => exact .same
  | mutexGet m timeoutMs pc => exact .same
  | op todo =>
    simp only [frameStep]
    unfold opStep
    split
    · exact .same
    · exact .same
    · exact .micro _ rfl
  | region pc =>
    cases pc with
    | claim => exact .claim
    | release => exact .release
    | _ => exact .same

/-- A move after which the stack goes on. -/
def Move.stays : Move → Bool
  | .goto _ => true
  | .call _ _ => true
  | .ret _ => true
  | _ => false

/-- **How a frame can leave its stack**: where it does not, it goes on, calls or returns. -/
inductive Exit (g : Globals) : Frame → Globals → Move → Prop
  | stay {f : Frame} {g' : Globals} {mv : Move} : mv.stays = true → Exit g f g' mv
  | enter : Exit g (.run .set) { g with running := true } .enter
  | yield {t : TaskId} : Exit g (.yield (.switch t)) g (.switch t)
  | park {timed : Bool} {w : UInt32} {t : TaskId} : Exit g (.park timed w (.switch t)) g (.switch t)
  | retire {t : TaskId} {todo : List Micro} : Exit g (.op (.retire t :: todo)) g (.retire t)

theorem codeStep_stays {here : Frame} {fin : Move} (h : fin.stays = true) :
    (codeStep o here fin).stays = true := by
  unfold codeStep
  split
  · rfl
  · exact h

theorem frameStep_exit (h : frameStep cfg x o g f = (g', mv)) : Exit g f g' mv := by
  obtain ⟨rfl, rfl⟩ := Prod.mk.inj h
  cases f with
  | poll pc =>
    refine .stay ?_
    cases pc with
    | irqs => exact codeStep_stays rfl
    | timers => exact codeStep_stays rfl
    | initted => simp only [pollStep]; split_ifs <;> rfl
    | current => simp only [pollStep]; split_ifs <;> rfl
    | schedPending => simp only [pollStep]; split_ifs <;> rfl
    | _ => rfl
  | yield pc =>
    cases pc with
    | switch t => exact .yield
    | hook =>
      refine .stay ?_
      simp only [yieldStep]
      split_ifs
      · rfl
      · exact codeStep_stays rfl
    | _ => exact .stay rfl
  | park timed wakeAt pc =>
    cases pc with
    | switch t => exact .park
    | _ => exact .stay rfl
  | run pc =>
    cases pc with
    | check => exact .stay (by simp only [runEntryStep]; split_ifs <;> rfl)
    | set => exact .enter
  | wait c evals w =>
    refine .stay ?_
    simp only [waitFrame]
    split
    case h_2 => split_ifs <;> rfl
    all_goals rfl
  | notifyWait timeoutMs =>
    refine .stay ?_
    simp only [notifyWaitStep]
    split <;> rfl
  | mutexGet m timeoutMs pc =>
    refine .stay ?_
    cases pc with
    | enter => simp only [mutexGetStep]; split_ifs <;> rfl
    | _ => rfl
  | op todo =>
    show Exit g _ (opStep cfg o g todo).1 (opStep cfg o g todo).2
    unfold opStep
    split
    · exact .stay rfl
    · exact .retire
    · exact .stay rfl
  | region pc =>
    refine .stay ?_
    cases pc with
    | inside => exact codeStep_stays rfl
    | _ => rfl

/-- The passes begin from the entry of `mm_halow_sched_run`. -/
theorem frameStep_enter (h : frameStep cfg x o g f = (g', .enter)) :
    f = .run .set ∧ g' = { g with running := true } := by
  cases frameStep_exit h with
  | stay hs => exact Bool.noConfusion hs
  | enter => exact ⟨rfl, rfl⟩

/-! ## Frames of a task -/

/-- A frame on the stack of the task `t`: it does not serve the transceiver, does not begin passes,
and leaves as `t`. -/
def TaskFrame (t : TaskId) : Frame → Prop
  | .poll pc => pc = .initted ∨ pc = .current
  | .yield pc => pc = .current ∨ pc = .woken t ∨ pc = .switch t
  | .park _ _ pc => pc = .current ∨ pc = .deadline t ∨ pc = .switch t
  | .run pc => pc = .check
  | .op todo => ∀ u, .retire u ∈ todo → u = t
  | _ => True

/-- The frames a move puts on the stack. -/
def Move.frames : Move → List Frame
  | .goto f => [f]
  | .call f callee => [callee, f]
  | _ => []

/-- What holds of every call and of where the code stands holds of its frames. -/
theorem codeStep_frames {P : Frame → Prop} {here : Frame} {fin : Move}
    (hcall : ∀ c : Call, P c.frame) (hhere : P here) (hfin : ∀ f' ∈ fin.frames, P f') :
    ∀ f' ∈ (codeStep o here fin).frames, P f' := by
  unfold codeStep
  split
  · exact List.forall_mem_cons.mpr ⟨hcall _, List.forall_mem_singleton.mpr hhere⟩
  · exact hfin

/-- The frames that stay on a stack. -/
def StackMove.stay : StackMove → List Frame
  | .frames l => l
  | .switch _ rest => rest
  | .enter rest => rest
  | _ => []

/-- **The rule for a property of all frames of a stack.** -/
theorem stackStep_all {P : Frame → Prop} {l : List Frame} {sm : StackMove}
    (h : stackStep cfg x o g l = (g', sm)) (hcall : ∀ c : Call, P c.frame)
    (hret : ∀ r f, P f → P (resumeWith r f))
    (hstep : ∀ f, (frameStep cfg x o g f).1 = g' → P f →
      ∀ f' ∈ (frameStep cfg x o g f).2.frames, P f')
    (hl : ∀ f ∈ l, P f) : ∀ f ∈ sm.stay, P f := by
  have hg' : (stackStep cfg x o g l).1 = g' := congrArg Prod.fst h
  obtain rfl : (stackStep cfg x o g l).2 = sm := congrArg Prod.snd h
  cases l with
  | nil =>
    unfold stackStep
    cases o.call with
    | none => exact fun f hf => absurd hf List.not_mem_nil
    | some c =>
      intro f hf
      obtain rfl := List.mem_singleton.mp hf
      exact hcall c
  | cons f rest =>
    have hrest : ∀ f ∈ rest, P f := fun f hf => hl f (List.mem_cons_of_mem _ hf)
    have hnew := hstep f hg' (hl f List.mem_cons_self)
    simp only [stackStep]
    cases hmv : (frameStep cfg x o g f).2 with
    | goto f' =>
      rw [hmv] at hnew
      exact List.forall_mem_cons.mpr ⟨hnew f' List.mem_cons_self, hrest⟩
    | call f' callee =>
      rw [hmv] at hnew
      exact List.forall_mem_cons.mpr ⟨hnew _ List.mem_cons_self, List.forall_mem_cons.mpr
        ⟨hnew _ (List.mem_cons_of_mem _ List.mem_cons_self), hrest⟩⟩
    | ret r =>
      cases rest with
      | nil => exact fun f hf => absurd hf List.not_mem_nil
      | cons f' rest =>
        obtain ⟨hf', hrest⟩ := List.forall_mem_cons.mp hrest
        exact List.forall_mem_cons.mpr ⟨hret r f' hf', hrest⟩
    | switch t => exact hrest
    | retire t => exact fun f hf => absurd hf List.not_mem_nil
    | enter => exact hrest

theorem TaskFrame.call (t : TaskId) (c : Call) : TaskFrame t c.frame := by
  cases c with
  | op p =>
    cases p with
    | taskDelete u => cases u <;> simp [Call.frame, Op.micros, TaskFrame]
    | _ => simp [Call.frame, Op.micros, TaskFrame]
  | poll => exact Or.inl rfl
  | yield => exact Or.inl rfl
  | run => exact rfl
  | _ => trivial

theorem TaskFrame.resume {t : TaskId} {r : Bool} (h : TaskFrame t f) :
    TaskFrame t (resumeWith r f) := by
  unfold resumeWith
  split
  · trivial
  · exact h

theorem microStep_retire {t u : TaskId} {m : Micro} {rest : List Micro} {heap : Bool}
    (hcur : g.cur = some t) (h : ∀ u, .retire u ∈ m :: rest → u = t)
    (hu : .retire u ∈ (microStep cfg heap m rest g).1) : u = t := by
  have hrest : .retire u ∈ rest → u = t := fun hr => h u (List.mem_cons_of_mem _ hr)
  cases m with
  | semGive s =>
    simp only [microStep] at hu
    split_ifs at hu
    · exact hrest hu
    · exact absurd hu List.not_mem_nil
  | queuePush q item =>
    simp only [microStep] at hu
    split_ifs at hu
    · exact hrest hu
    · exact absurd hu List.not_mem_nil
  | queuePop q =>
    simp only [microStep] at hu
    split at hu
    · exact hrest hu
    · exact absurd hu List.not_mem_nil
  | deleteSelf =>
    simp only [microStep, hcur, List.mem_cons, reduceCtorEq, List.not_mem_nil, or_false,
      false_or] at hu
    exact Micro.retire.inj hu
  | retire v => exact absurd hu List.not_mem_nil
  | create =>
    simp only [microStep] at hu
    split at hu
    · exact absurd hu List.not_mem_nil
    · exact hrest hu
  | _ => exact hrest hu

/-- While `t` is current, its frames stay frames of a task. -/
theorem TaskFrame.step {t : TaskId} (hcur : g.cur = some t) (hf : TaskFrame t f) :
    ∀ f' ∈ (frameStep cfg x o g f).2.frames, TaskFrame t f' := by
  cases f with
  | poll pc =>
    rcases hf with rfl | rfl
    · simp only [frameStep, pollStep]
      split_ifs <;> simp [Move.frames, TaskFrame]
    · simp [frameStep, pollStep, hcur, Move.frames]
  | yield pc =>
    rcases hf with rfl | rfl | rfl <;>
      simp [frameStep, yieldStep, hcur, Move.frames, TaskFrame]
  | park timed wakeAt pc =>
    rcases hf with rfl | rfl | rfl <;>
      simp [frameStep, parkStep, hcur, Move.frames, TaskFrame]
  | run pc =>
    obtain rfl : pc = .check := hf
    simp [frameStep, runEntryStep, hcur, Move.frames]
  | wait c evals w =>
    simp only [frameStep, waitFrame]
    split
    case h_2 => split_ifs <;> simp [Move.frames, TaskFrame]
    all_goals simp [Move.frames, TaskFrame]
  | notifyWait timeoutMs => simp [frameStep, notifyWaitStep, hcur, Move.frames, TaskFrame, waitOn]
  | mutexGet m timeoutMs pc =>
    cases pc with
    | enter =>
      simp only [frameStep, mutexGetStep]
      split_ifs <;> simp [Move.frames, TaskFrame, waitOn]
    | _ => simp [frameStep, mutexGetStep, Move.frames, TaskFrame, waitOn]
  | op todo =>
    simp only [frameStep]
    unfold opStep
    split
    · simp [Move.frames]
    · simp [Move.frames]
    · intro f' hf'
      obtain rfl := List.mem_singleton.mp hf'
      exact fun u hu => microStep_retire hcur hf hu
  | region pc =>
    cases pc with
    | inside =>
      exact codeStep_frames (TaskFrame.call t) trivial (List.forall_mem_singleton.mpr trivial)
    | _ => simp [frameStep, regionStep, Move.frames, TaskFrame]

/-! ## One step of a context -/

/-- The task a run has made current. -/
def bodyCur : Option Body → Option TaskId
  | some ⟨.resume _ t, _⟩ => some t
  | some ⟨.inTurn _ t, _⟩ => some t
  | some ⟨.clearCur _ t, _⟩ => some t
  | _ => none

/-- In a turn the frames are the task's; elsewhere in a run there are none. -/
def BodyOk (b : Body) : Prop :=
  match b.pc with
  | .inTurn _ t => ∀ f ∈ b.frames, TaskFrame t f
  | _ => b.frames = []

/-- Every saved stack is one of its task. -/
def SavedOk (g : Globals) : Prop := ∀ t, ∀ f ∈ (g.task t).sp, TaskFrame t f

/-- What holds of the context that executes, where the run of the other context is `other`. -/
structure CtxOk (g : Globals) (other : Option Body) (c : Context) : Prop where
  one : c.body = none ∨ other = none
  running : g.running = (c.body.isSome || other.isSome)
  cur : g.cur = (bodyCur c.body).or (bodyCur other)
  body : ∀ b, c.body = some b → BodyOk b
  entering : c.body = none → .run .set ∈ c.frames → other = none
  saved : SavedOk g

theorem claim_cur (x : Ctx) (g : Globals) :
    (claim x g).2.cur = g.cur ∧ (claim x g).2.running = g.running := by
  unfold claim
  split_ifs <;> exact ⟨rfl, rfl⟩

theorem release_cur (g : Globals) :
    (release g).cur = g.cur ∧ (release g).running = g.running := by
  unfold release
  split_ifs <;> exact ⟨rfl, rfl⟩

/-- A frame leaves the current task alone, and `mm_halow_sched_running` unless it begins passes. -/
theorem frameStep_cur (h : frameStep cfg x o g f = (g', mv)) :
    g'.cur = g.cur ∧ (f ≠ .run .set → g'.running = g.running) := by
  cases frameStep_touch h with
  | claim => exact ⟨(claim_cur x g).1, fun _ => (claim_cur x g).2⟩
  | release => exact ⟨(release_cur g).1, fun _ => (release_cur g).2⟩
  | enter hf => exact ⟨rfl, fun hne => absurd hf hne⟩
  | @cond c _ _ hf =>
    have hctl : ctl (evalCond cfg c g).2 = ctl g := evalCond_ctl c
    exact ⟨congrArg Ctl.cur hctl, fun _ => congrArg Ctl.running hctl⟩
  | @micro m todo heap hf =>
    have hctl : ctl (microStep cfg heap m todo g).2 = ctl g := microStep_ctl m todo heap
    exact ⟨congrArg Ctl.cur hctl, fun _ => congrArg Ctl.running hctl⟩
  | _ => exact ⟨rfl, fun _ => rfl⟩

/-- Frames save no stack; a slot that gets a new task gets an empty one. -/
theorem frameStep_sp (h : frameStep cfg x o g f = (g', mv)) (t : TaskId) :
    (g'.task t).sp = (g.task t).sp ∨ (g'.task t).sp = [] := by
  cases frameStep_touch h with
  | claim =>
    unfold claim
    split_ifs <;> exact Or.inl rfl
  | release =>
    unfold release
    split_ifs <;> exact Or.inl rfl
  | cond hf => exact Or.inl (evalCond_sp _ t)
  | micro heap hf => exact microStep_sp _ _ heap t
  | _ => exact Or.inl rfl

theorem stackStep_cur {l : List Frame} {sm : StackMove} (h : stackStep cfg x o g l = (g', sm)) :
    g'.cur = g.cur := by
  cases l with
  | nil =>
    obtain ⟨rfl, -⟩ := Prod.mk.inj h
    rfl
  | cons f rest =>
    obtain ⟨rfl, -⟩ := Prod.mk.inj h
    exact (frameStep_cur rfl).1

theorem stackStep_running {l : List Frame} {sm : StackMove}
    (h : stackStep cfg x o g l = (g', sm)) (hsm : ∀ rest, sm ≠ .enter rest) :
    g'.running = g.running := by
  cases l with
  | nil =>
    obtain ⟨rfl, -⟩ := Prod.mk.inj h
    rfl
  | cons f rest =>
    obtain ⟨rfl, rfl⟩ := Prod.mk.inj h
    refine (frameStep_cur rfl).2 ?_
    rintro rfl
    exact hsm rest rfl

theorem SavedOk.stack {l : List Frame} {sm : StackMove} (hs : SavedOk g)
    (h : stackStep cfg x o g l = (g', sm)) : SavedOk g' := by
  cases l with
  | nil =>
    obtain ⟨rfl, -⟩ := Prod.mk.inj h
    exact hs
  | cons f rest =>
    obtain ⟨rfl, -⟩ := Prod.mk.inj h
    intro t f' hf'
    rcases frameStep_sp (Prod.eta (frameStep cfg x o g f)).symm t with hsp | hsp
    · exact hs t f' (hsp ▸ hf')
    · rw [hsp] at hf'
      exact absurd hf' List.not_mem_nil

/-- Passes begin only where `mm_halow_sched_run` has found no run. -/
theorem stackStep_enter {l rest : List Frame} (h : stackStep cfg x o g l = (g', .enter rest)) :
    l = .run .set :: rest ∧ g' = { g with running := true } := by
  cases l with
  | nil =>
    have := congrArg Prod.snd h
    simp only [stackStep] at this
    split at this <;> simp at this
  | cons f tail =>
    obtain ⟨hg, hmv⟩ := Prod.mk.inj h
    cases hm : (frameStep cfg x o g f).2 with
    | enter =>
      rw [hm] at hmv
      obtain rfl := StackMove.enter.inj hmv
      obtain ⟨rfl, hg'⟩ := frameStep_enter (Prod.ext rfl hm : frameStep cfg x o g f = (_, .enter))
      exact ⟨rfl, hg ▸ hg'⟩
    | _ => rw [hm] at hmv; simp [Move.onto] at hmv

theorem Call.frame_ne_set (c : Call) : c.frame ≠ .run .set := by
  cases c <;> simp [Call.frame, waitOn]

/-- A frame is past the check of `mm_halow_sched_run` only where no run was found. -/
theorem frameStep_set (hne : f ≠ .run .set) (h : .run .set ∈ (frameStep cfg x o g f).2.frames) :
    g.running = false := by
  by_cases hf : f = .run .check
  · subst hf
    by_cases hr : g.running ∨ g.cur ≠ none
    · simp [frameStep, runEntryStep, hr, Move.frames] at h
    · exact Bool.eq_false_iff.mpr fun h => hr (Or.inl h)
  · suffices hall : ∀ f' ∈ (frameStep cfg x o g f).2.frames, f' ≠ .run .set from
      absurd rfl (hall _ h)
    cases f with
    | run pc => cases pc <;> contradiction
    | poll pc =>
      cases pc with
      | irqs => exact codeStep_frames Call.frame_ne_set nofun (List.forall_mem_singleton.mpr nofun)
      | timers => exact codeStep_frames Call.frame_ne_set nofun (List.forall_mem_singleton.mpr nofun)
      | initted => simp only [frameStep, pollStep]; split_ifs <;> simp [Move.frames]
      | current => simp only [frameStep, pollStep]; split_ifs <;> simp [Move.frames]
      | schedPending => simp only [frameStep, pollStep]; split_ifs <;> simp [Move.frames]
      | _ => simp [frameStep, pollStep, Move.frames]
    | yield pc =>
      cases pc with
      | hook =>
        simp only [frameStep, yieldStep]
        split_ifs
        · exact fun f hf => absurd hf List.not_mem_nil
        · exact codeStep_frames Call.frame_ne_set nofun fun f hf => absurd hf List.not_mem_nil
      | _ => simp [frameStep, yieldStep, Move.frames]
    | park timed wakeAt pc =>
      cases pc with
      | current => simp only [frameStep, parkStep]; split <;> simp [Move.frames]
      | _ => simp [frameStep, parkStep, Move.frames]
    | wait c evals w =>
      simp only [frameStep, waitFrame]
      split
      case h_2 => split_ifs <;> simp [Move.frames]
      all_goals simp [Move.frames]
    | notifyWait timeoutMs =>
      simp only [frameStep, notifyWaitStep]
      split <;> simp [Move.frames, waitOn]
    | mutexGet m timeoutMs pc =>
      cases pc with
      | enter => simp only [frameStep, mutexGetStep]; split_ifs <;> simp [Move.frames, waitOn]
      | _ => simp [frameStep, mutexGetStep, Move.frames, waitOn]
    | op todo =>
      simp only [frameStep]
      unfold opStep
      split <;> simp [Move.frames]
    | region pc =>
      cases pc with
      | inside => exact codeStep_frames Call.frame_ne_set nofun (List.forall_mem_singleton.mpr nofun)
      | _ => simp [frameStep, regionStep, Move.frames]

theorem resumeWith_eq_set {r : Bool} (h : resumeWith r f = .run .set) : f = .run .set := by
  unfold resumeWith at h
  split at h
  · exact Frame.noConfusion h
  · exact h

/-- A stack that stays outside the passes holds a frame past the check of `mm_halow_sched_run` only
where it did or no run was found. -/
theorem stackStep_set {l l' : List Frame} (h : stackStep cfg x o g l = (g', .frames l'))
    (hset : .run .set ∈ l') : .run .set ∈ l ∨ g.running = false := by
  by_contra hn
  obtain ⟨hl, hr⟩ := not_or.mp hn
  have hall : ∀ f ∈ (StackMove.frames l').stay, f ≠ .run .set :=
    stackStep_all h Call.frame_ne_set (fun _ _ hf hr => hf (resumeWith_eq_set hr))
      (fun _ _ hf _ hf' he => hr (frameStep_set hf (he ▸ hf'))) fun _ hf he => hl (he ▸ hf)
  exact hall _ hset rfl

theorem TaskFrame.ne_set {t : TaskId} (h : TaskFrame t f) : f ≠ .run .set := by
  rintro rfl
  exact RunEntryPc.noConfusion h

/-- While `t` is current, the frames that stay on its stack are a task's. -/
theorem TaskFrame.stack {t : TaskId} {l : List Frame} {sm : StackMove} (hcur : g.cur = some t)
    (hl : ∀ f ∈ l, TaskFrame t f) (h : stackStep cfg x o g l = (g', sm)) :
    ∀ f ∈ sm.stay, TaskFrame t f :=
  stackStep_all h (TaskFrame.call t) (fun _ _ hf => hf.resume) (fun _ _ hf => hf.step hcur) hl

theorem TaskFrame.stack_running {t : TaskId} {l : List Frame} {sm : StackMove}
    (hl : ∀ f ∈ l, TaskFrame t f) (h : stackStep cfg x o g l = (g', sm)) :
    g'.running = g.running := by
  refine stackStep_running h ?_
  rintro rest rfl
  exact (hl (.run .set) ((stackStep_enter h).1 ▸ List.mem_cons_self)).ne_set rfl

/-! ## One step of a context -/

theorem SavedOk.save {t : TaskId} {l : List Frame} (hs : SavedOk g) (hl : ∀ f ∈ l, TaskFrame t f) :
    SavedOk (setTask g t fun k => { k with sp := l }) := by
  intro u f hf
  by_cases hu : u = t
  · subst hu
    rw [setTask_self] at hf
    exact hl f hf
  · rw [setTask_other hu] at hf
    exact hs u f hf

variable {other : Option Body} {c : Context} {c' : Option Context}

/-- What a context is after the step, where it has nothing to do that is `idle`. -/
theorem CtxOk.turn (h : CtxOk g other c) {pass : Nat} {t : TaskId} {fr : List Frame}
    (hb : c.body = some ⟨.inTurn pass t, fr⟩) :
    g.cur = some t ∧ other = none ∧ g.running = true ∧ ∀ f ∈ fr, TaskFrame t f := by
  refine ⟨by rw [h.cur, hb]; rfl, h.one.resolve_left (by rw [hb]; exact Option.some_ne_none _),
    by rw [h.running, hb]; rfl, h.body _ hb⟩

theorem reap_sp (g : Globals) (t : TaskId) : ((reap g).task t).sp = (g.task t).sp := by
  simp only [reap]
  split_ifs <;> rfl

/-- **One step of `mm_halow_sched_run` outside a turn keeps who runs what.** -/
theorem CtxOk.bodyStep (h : CtxOk g other c) {pc : RunPc} {fr : List Frame}
    (hb : c.body = some ⟨pc, fr⟩) (hpc : ∀ pass t, pc ≠ .inTurn pass t) :
    CtxOk (bodyStep cfg g pc).1 other ⟨c.frames, (bodyStep cfg g pc).2⟩ := by
  obtain rfl : other = none := h.one.resolve_left (by rw [hb]; exact Option.some_ne_none _)
  have hrun : g.running = true := by rw [h.running, hb]; rfl
  have hcur : g.cur = bodyCur (some ⟨pc, fr⟩) := by rw [h.cur, hb]; exact Option.or_none
  have hset : .run .set ∈ c.frames → (none : Option Body) = none := fun _ => rfl
  cases pc with
  | finish => exact ⟨Or.inl rfl, rfl, hcur, nofun, fun _ => hset, h.saved⟩
  | inTurn pass t => exact absurd rfl (hpc pass t)
  | walk pass t =>
    cases t with
    | none =>
      exact ⟨Or.inr rfl, hrun, hcur, fun b hb => Option.some.inj hb ▸ rfl, nofun, h.saved⟩
    | some t =>
      refine ⟨Or.inr rfl, hrun, ?_, fun b hb => ?_, nofun, h.saved⟩
      · simp only [Sched.bodyStep]
        split_ifs <;> exact hcur
      · simp only [Sched.bodyStep] at hb
        split_ifs at hb <;> exact Option.some.inj hb ▸ rfl
  | passTest pass =>
    refine ⟨Or.inr rfl, hrun, ?_, fun b hb => ?_, nofun, h.saved⟩
    · simp only [Sched.bodyStep]
      split_ifs <;> exact hcur
    · simp only [Sched.bodyStep] at hb
      split_ifs at hb <;> exact Option.some.inj hb ▸ rfl
  | passEnd pass =>
    refine ⟨Or.inr rfl, hrun, ?_, fun b hb => ?_, nofun, h.saved⟩
    · simp only [Sched.bodyStep]
      split_ifs <;> exact hcur
    · simp only [Sched.bodyStep] at hb
      split_ifs at hb <;> exact Option.some.inj hb ▸ rfl
  | resume pass t =>
    exact ⟨Or.inr rfl, hrun, hcur, fun b hb => Option.some.inj hb ▸ h.saved t, nofun, h.saved⟩
  | setCur pass t =>
    exact ⟨Or.inr rfl, hrun, rfl, fun b hb => Option.some.inj hb ▸ rfl, nofun, h.saved⟩
  | clearCur pass t =>
    exact ⟨Or.inr rfl, hrun, rfl, fun b hb => Option.some.inj hb ▸ rfl, nofun, h.saved⟩
  | reap =>
    refine ⟨Or.inr rfl, hrun, hcur, fun b hb => Option.some.inj hb ▸ rfl, nofun, ?_⟩
    show SavedOk (Sched.reap g)
    intro t f hf
    rw [reap_sp] at hf
    exact h.saved t f hf
  | _ => exact ⟨Or.inr rfl, hrun, hcur, fun b hb => Option.some.inj hb ▸ rfl, nofun, h.saved⟩

/-- **A step of a context keeps who runs what**, and a context that is over is in no run. -/
theorem CtxOk.step (h : CtxOk g other c) (hs : c.step cfg x o g = (g', c')) :
    CtxOk g' other (c'.getD idle) ∧ (c' = none → c.body = none) := by
  cases Context.step_cases hs with
  | frames hb hst =>
    refine ⟨⟨Or.inl rfl, ?_, ?_, nofun, fun _ hset => ?_, h.saved.stack hst⟩, nofun⟩
    · rw [stackStep_running hst nofun, h.running, hb]
      rfl
    · rw [stackStep_cur hst, h.cur, hb]
      rfl
    · rcases stackStep_set hst hset with hin | hrun
      · exact h.entering hb hin
      · rw [h.running, hb] at hrun
        exact Option.not_isSome_iff_eq_none.mp (by simpa using hrun)
  | enter hb hst =>
    obtain ⟨hl, rfl⟩ := stackStep_enter hst
    obtain rfl := h.entering hb (hl ▸ List.mem_cons_self)
    have hcur : g.cur = none := by rw [h.cur, hb]; rfl
    exact ⟨⟨Or.inr rfl, rfl, hcur, fun b hb => Option.some.inj hb ▸ rfl, nofun, h.saved⟩, nofun⟩
  | finished hb hst =>
    refine ⟨⟨Or.inl rfl, ?_, ?_, nofun, fun _ hset => absurd hset List.not_mem_nil,
      h.saved.stack hst⟩, fun _ => hb⟩
    · rw [stackStep_running hst nofun, h.running, hb]
      rfl
    · rw [stackStep_cur hst, h.cur, hb]
      rfl
  | stuck => exact ⟨h, nofun⟩
  | turn hb hst =>
    obtain ⟨hcur, rfl, hrun, hfr⟩ := h.turn hb
    refine ⟨⟨Or.inr rfl, ?_, ?_, fun b hb => ?_, nofun, h.saved.stack hst⟩, nofun⟩
    · rw [TaskFrame.stack_running hfr hst, hrun]
      rfl
    · rw [stackStep_cur hst, hcur]
      rfl
    · obtain rfl := Option.some.inj hb
      exact TaskFrame.stack hcur hfr hst
  | @returned _ pass t fr hb hst =>
    obtain ⟨hcur, rfl, hrun, hfr⟩ := h.turn hb
    refine ⟨⟨Or.inr rfl, ?_, ?_, fun b hb => ?_, nofun, h.saved.stack hst⟩, nofun⟩
    · rw [TaskFrame.stack_running hfr hst, hrun]
      rfl
    · rw [stackStep_cur hst, hcur]
      rfl
    · obtain rfl := Option.some.inj hb
      intro f hf
      obtain rfl := List.mem_singleton.mp hf
      simp [TaskFrame, Op.micros]
  | switch hb hst =>
    obtain ⟨hcur, rfl, hrun, hfr⟩ := h.turn hb
    refine ⟨⟨Or.inr rfl, ?_, ?_, fun b hb => Option.some.inj hb ▸ rfl, nofun,
      (h.saved.stack hst).save (TaskFrame.stack hcur hfr hst)⟩, nofun⟩
    · exact (TaskFrame.stack_running hfr hst).trans hrun
    · exact (stackStep_cur hst).trans hcur
  | retire hb hst =>
    obtain ⟨hcur, rfl, hrun, hfr⟩ := h.turn hb
    refine ⟨⟨Or.inr rfl, ?_, ?_, fun b hb => Option.some.inj hb ▸ rfl, nofun,
      (h.saved.stack hst).save fun f hf => absurd hf List.not_mem_nil⟩, nofun⟩
    · exact (TaskFrame.stack_running hfr hst).trans hrun
    · exact (stackStep_cur hst).trans hcur
  | body hb hpc => exact ⟨h.bodyStep hb hpc, nofun⟩

/-! ## One step of the machine -/

/-- **Who runs what**, in every reachable state. -/
def Control (s : Machine) : Prop :=
  match s.pendsv with
  | none => CtxOk s.g none s.thread
  | some c => CtxOk s.g s.thread.body c ∧ ∀ b, s.thread.body = some b → BodyOk b

/-- What leaves the scheduler's words and the saved stacks alone leaves `CtxOk`. -/
theorem CtxOk.frame (h : CtxOk g other c) (hcur : g'.cur = g.cur) (hrun : g'.running = g.running)
    (hsp : ∀ t, (g'.task t).sp = (g.task t).sp ∨ (g'.task t).sp = []) : CtxOk g' other c where
  one := h.one
  running := hrun.trans h.running
  cur := hcur.trans h.cur
  body := h.body
  entering := h.entering
  saved := by
    intro t f hf
    rcases hsp t with ht | ht
    · exact h.saved t f (ht ▸ hf)
    · rw [ht] at hf
      exact absurd hf List.not_mem_nil

theorem CtxOk.advance (h : CtxOk g other c) (dt : Nat) : CtxOk (advance dt g) other c :=
  h.frame rfl rfl fun _ => Or.inl rfl

variable {s u : Machine} {e : Event}

theorem Control.frame {g' : Globals} {isrs : List (List Micro)} (h : Control s)
    (hcur : g'.cur = s.g.cur) (hrun : g'.running = s.g.running)
    (hsp : ∀ t, (g'.task t).sp = (s.g.task t).sp ∨ (g'.task t).sp = []) :
    Control ⟨g', s.thread, s.pendsv, isrs⟩ := by
  unfold Control at h ⊢
  cases hp : s.pendsv with
  | none =>
    rw [hp] at h
    exact h.frame hcur hrun hsp
  | some c =>
    rw [hp] at h
    exact ⟨h.1.frame hcur hrun hsp, h.2⟩

/-- **Every step of the machine keeps who runs what.** -/
theorem Control.step (h : Control s) (hs : Step cfg s e u) : Control u := by
  cases hs.cases with
  | isr => exact h.frame rfl rfl fun _ => Or.inl rfl
  | isrDone => exact h.frame rfl rfl fun _ => Or.inl rfl
  | @isrStep o m todo rest =>
    have hctl : ctl (microStep cfg o.heap m todo (advance o.dt s.g)).2 = ctl s.g :=
      microStep_ctl m todo o.heap
    exact h.frame (congrArg Ctl.cur hctl) (congrArg Ctl.running hctl)
      fun t => microStep_sp m todo o.heap t
  | dispatch _ hp =>
    unfold Control at h ⊢
    rw [hp] at h
    refine ⟨⟨Or.inl rfl, ?_, ?_, nofun, fun _ hset => absurd hset List.not_mem_nil, h.saved⟩, h.body⟩
    · simpa [idle] using h.running
    · simpa [idle, bodyCur] using h.cur
  | @pendsv o c g' c' _ hp hc =>
    unfold Control at h ⊢
    rw [hp] at h
    obtain ⟨hok, hfin⟩ := (h.1.advance o.dt).step hc
    cases c' with
    | some c' => exact ⟨hok, h.2⟩
    | none =>
      refine ⟨Or.inr rfl, ?_, ?_, h.2, fun hb hset => rfl, hok.saved⟩
      · simpa [idle] using hok.running
      · simpa [idle, bodyCur] using hok.cur
  | thread _ hp hc =>
    unfold Control at h ⊢
    rw [hp] at h ⊢
    exact ((h.advance _).step hc).1

variable {now : Nat} {mutex : Nat → Mutex} {sem : Nat → Sem} {semb : Nat → Bool}
  {queue : Nat → Queue} {tr : List Event}

theorem Control.boot : Control (boot (bootGlobals now mutex sem semb queue)) where
  one := Or.inl rfl
  running := rfl
  cur := rfl
  body := nofun
  entering := fun _ h => absurd h List.not_mem_nil
  saved := fun _ _ hf => absurd hf List.not_mem_nil

/-- **Every reachable state says who runs what.** -/
theorem Control.run (h : Run (Step cfg) (Sched.boot (bootGlobals now mutex sem semb queue)) tr s) :
    Control s :=
  h.inv Control.boot fun _ _ _ hc hs => hc.step hs

end MmHalow.Sched
