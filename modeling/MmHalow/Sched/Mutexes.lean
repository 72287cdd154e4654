import MmHalow.Sched.Objects

/-!
# Mutexes (`mmosal_mutex_get`, `mmosal_mutex_release`)

A context holds a mutex from the evaluation in which its get takes it to the store of its release
that unlocks it (`Holder`). The holders are recorded along a run (`TrackStep`): the step that takes
a mutex adds one, the first store of a release marks those of its context, the second removes them.
The record allows several holders of one mutex; that there is only one is the result. A release may
only be made by a context that holds the mutex (`Releases`).

* `Holding.step`: every step keeps the record in line with the mutexes.
* `mutex_exclusive`: **at most one context holds a mutex; it is locked exactly while one does; while
  it is not being released its owner is the task that was current when it was taken; and a get that
  returns false has not changed it.**
-/

namespace MmHalow.Sched

open MmHalow.Lib MmHalow.Lib.Clock MmHalow.Osal

/-! ## Who executes -/

/-- Whose code is executed: a task's, that of thread context or of PendSV outside their tasks'
turns, or another interrupt's. -/
inductive Who where
  | task (t : TaskId)
  | thread
  | irq
  | isr
  deriving Repr, DecidableEq

/-- The stack a context steps: its own, or that of the task that has its turn. -/
def Context.stack (c : Context) : List Frame :=
  match c.body with
  | none => c.frames
  | some ⟨.inTurn _ _, frames⟩ => frames
  | some _ => []

/-- Whose stack that is; `w` is the context outside its tasks' turns. -/
def Context.who (w : Who) (c : Context) : Who :=
  match c.body with
  | some ⟨.inTurn _ t, _⟩ => .task t
  | _ => w

/-- The frame a context steps and whose it is. -/
def Context.acting (w : Who) (c : Context) : Option (Who × Frame) :=
  c.stack.head?.map fun f => (c.who w, f)

/-- The frame an event steps and whose it is. -/
def executes (s : Machine) : Event → Option (Who × Frame)
  | .isrStep _ => s.isrs.head?.map fun todo => (.isr, .op todo)
  | .pendsv _ => s.pendsv.bind (Context.acting .irq)
  | .thread _ => s.thread.acting .thread
  | _ => none

/-! ## Holders -/

/-- A context that has taken a mutex: the task that was current then, and whether its release is
under way. -/
structure Holder where
  who : Who
  task : Option TaskId
  releasing : Bool
  deriving Repr, DecidableEq

/-- The holders after a step of `w`'s frame. -/
def holdersAfter (g : Globals) (w : Who) (hs : Nat → List Holder) : Frame → Nat → List Holder
  | .wait (.mutexAcquired m) _ wt =>
    if wt.pc.evaluates ∧ (g.mutex m).locked = false then
      Function.update hs m (⟨w, g.cur, false⟩ :: hs m)
    else hs
  | .op (.mutexClearOwner m :: _) =>
    Function.update hs m ((hs m).map fun h => if h.who = w then { h with releasing := true } else h)
  | .op (.mutexUnlock m :: _) => Function.update hs m ((hs m).filter fun h => h.who ≠ w)
  | _ => hs

/-- The machine and the holders of each mutex. -/
structure Tracked where
  machine : Machine
  holders : Nat → List Holder

/-- The holders after a step of the frame that executes, if any. -/
def holdersOf (g : Globals) (hs : Nat → List Holder) : Option (Who × Frame) → Nat → List Holder
  | some (w, f) => holdersAfter g w hs f
  | none => hs

/-- The holders after an event. -/
def track (p : Tracked) (e : Event) : Nat → List Holder :=
  holdersOf p.machine.g p.holders (executes p.machine e)

/-- A release is made by a context that holds the mutex. -/
def Releases (p : Tracked) (e : Event) : Prop :=
  ∀ w m rest, executes p.machine e = some (w, .op (.mutexClearOwner m :: rest)) →
    ∃ h ∈ p.holders m, h.who = w ∧ h.releasing = false

/-- A step with its record. -/
structure TrackStep (cfg : Config) (p : Tracked) (e : Event) (q : Tracked) : Prop where
  step : Step cfg p.machine e q.machine
  releases : Releases p e
  holders : q.holders = track p e

variable {cfg : Config} {x : Ctx} {o : Choice} {g g' : Globals} {f : Frame} {c : Context}
  {c' : Option Context} {w₀ w : Who}

/-! ## What steps do to the mutexes -/

/-- The mutexes after a step of a frame. -/
def mutexAfter (g : Globals) : Frame → Nat → Mutex
  | .wait (.mutexAcquired m) _ wt =>
    if wt.pc.evaluates then
      Function.update g.mutex m (mutexAcquired g.cur (ticks g) (g.mutex m)).2
    else g.mutex
  | .op (.mutexClearOwner m :: _) =>
    Function.update g.mutex m { g.mutex m with owner := none }
  | .op (.mutexUnlock m :: _) => Function.update g.mutex m { g.mutex m with locked := false }
  | _ => g.mutex

theorem microStep_mutex (m : Micro) (rest : List Micro) (heap : Bool) :
    (microStep cfg heap m rest g).2.mutex = mutexAfter g (.op (m :: rest)) := by
  cases m with
  | semGive s =>
    simp only [microStep]
    split_ifs <;> rfl
  | queuePush q item =>
    simp only [microStep]
    split_ifs <;> rfl
  | queuePop q =>
    simp only [microStep]
    split <;> rfl
  | deleteSelf =>
    simp only [microStep]
    split <;> rfl
  | create =>
    simp only [microStep]
    split
    · rfl
    · next hc =>
      obtain ⟨t, -, rfl⟩ := taskCreate_cases hc
      rfl
  | pending =>
    simp only [microStep]
    split_ifs <;> rfl
  | _ => rfl

theorem evalCond_mutex (c : Cond) (evals : List Bool) (wt : Wait) (hpc : wt.pc.evaluates = true) :
    (evalCond cfg c g).2.mutex = mutexAfter g (.wait c evals wt) := by
  cases c with
  | mutexAcquired m => simp only [evalCond, mutexAfter, hpc, if_true]
  | notified t =>
    simp only [evalCond]
    split_ifs <;> rfl
  | semTaken s =>
    simp only [evalCond]
    split_ifs <;> rfl
  | queuePopped q =>
    simp only [evalCond]
    split <;> rfl
  | queuePushed q item =>
    simp only [evalCond]
    split_ifs <;> rfl
  | _ => rfl

/-- A wait asks for an evaluation at its two places for it only. -/
theorem waitStep_eval {ticks : UInt32} {teardown outside : Bool} {wt : Wait}
    (h : (waitStep cfg ticks teardown outside wt).2 = .eval) : wt.pc.evaluates = true := by
  obtain ⟨timeoutMs, forever, start, counted, pc, asked⟩ := wt
  cases pc with
  | cond => rfl
  | recheck => rfl
  | counted => cases outside <;> exact WaitAct.noConfusion h
  | zero =>
    simp only [waitStep] at h
    split_ifs at h
  | teardown => cases teardown <;> exact WaitAct.noConfusion h
  | elapsed =>
    simp only [waitStep] at h
    split_ifs at h
  | leave r => cases counted <;> exact WaitAct.noConfusion h
  | wake r => cases r <;> exact WaitAct.noConfusion h
  | _ => exact WaitAct.noConfusion h

theorem waitFrame_mutex (c : Cond) (evals : List Bool) (wt : Wait) :
    (waitFrame cfg g c evals wt).1.mutex = mutexAfter g (.wait c evals wt) := by
  cases hpc : wt.pc.evaluates with
  | true =>
    have hor : wt.pc = .cond ∨ wt.pc = .recheck := by
      cases h : wt.pc <;> simp [h, WaitPc.evaluates] at hpc ⊢
    rw [(waitFrame_eval hor).1]
    exact evalCond_mutex c evals wt hpc
  | false =>
    have hsame : mutexAfter g (.wait c evals wt) = g.mutex := by
      cases c <;> simp [mutexAfter, hpc]
    have hact : (waitStep cfg (ticks g) g.teardown (g.cur = none) wt).2 ≠ .eval :=
      fun he => Bool.noConfusion (hpc.symm.trans (waitStep_eval he))
    rw [hsame]
    unfold waitFrame
    generalize waitStep cfg (ticks g) g.teardown (g.cur = none) wt = r at hact ⊢
    obtain ⟨w', act⟩ := r
    cases act with
    | eval => exact absurd rfl hact
    | _ => rfl

theorem Touch.mutex (h : Touch cfg x g f g') (hw : f.isWait = false) (ho : f.isOp = false) :
    g'.mutex = g.mutex := by
  cases h with
  | claim =>
    unfold Sched.claim
    split_ifs <;> rfl
  | release =>
    unfold Sched.release
    split_ifs <;> rfl
  | cond hf => exact absurd (hf ▸ hw : (Frame.wait _ _ _).isWait = false) Bool.true_eq_false.mp
  | micro _ hf => exact absurd (hf ▸ ho : (Frame.op _).isOp = false) Bool.true_eq_false.mp
  | _ => rfl

theorem frameStep_mutex : (frameStep cfg x o g f).1.mutex = mutexAfter g f := by
  have htouch : Touch cfg x g f (frameStep cfg x o g f).1 :=
    frameStep_touch (Prod.eta (frameStep cfg x o g f)).symm
  cases f with
  | wait c evals wt => exact waitFrame_mutex c evals wt
  | op todo =>
    simp only [frameStep]
    unfold opStep
    split
    · rfl
    · rfl
    · exact microStep_mutex _ _ _
  | _ => exact htouch.mutex rfl rfl

/-- What the step of a stack's top frame makes of the mutexes. -/
def topMutex (g : Globals) (l : List Frame) : Nat → Mutex :=
  match l.head? with
  | some f => mutexAfter g f
  | none => g.mutex

theorem stackStep_mutex {l : List Frame} {sm : StackMove} (h : stackStep cfg x o g l = (g', sm)) :
    g'.mutex = topMutex g l := by
  cases l with
  | nil =>
    obtain ⟨rfl, -⟩ := Prod.mk.inj h
    rfl
  | cons f rest =>
    obtain ⟨rfl, -⟩ := Prod.mk.inj h
    exact frameStep_mutex

/-- A frame that leaves its stack touches no mutex. -/
theorem stackStep_leaves_mutex {l : List Frame} {sm : StackMove}
    (h : stackStep cfg x o g l = (g', sm)) (hsm : ∀ l', sm ≠ .frames l') :
    topMutex g l = g.mutex := by
  cases l with
  | nil => rfl
  | cons f rest =>
    obtain ⟨rfl, rfl⟩ := Prod.mk.inj h
    cases frameStep_exit (Prod.eta (frameStep cfg x o g f)).symm with
    | stay hs =>
      cases hmv : (frameStep cfg x o g f).2 with
      | goto f' => exact absurd (by rw [hmv]; rfl) (hsm (f' :: rest))
      | call f' callee => exact absurd (by rw [hmv]; rfl) (hsm (callee :: f' :: rest))
      | ret r => exact absurd (by rw [hmv]; rfl) (hsm (returnTo r rest))
      | _ => rw [hmv] at hs; exact Bool.noConfusion hs
    | _ => rfl

theorem bodyStep_mutex (pc : RunPc) : (bodyStep cfg g pc).1.mutex = g.mutex :=
  congrArg Objects.mutex (bodyStep_objects pc)

/-- A context changes the mutexes as the frame does that it steps. -/
theorem Context.step_mutex (h : c.step cfg x o g = (g', c')) : g'.mutex = topMutex g c.stack := by
  unfold Context.step at h
  unfold Context.stack
  split at h
  · next hb =>
    rw [hb]
    cases hs : stackStep cfg x o g c.frames with
    | mk g1 sm =>
      have htop := stackStep_mutex hs
      rw [hs] at h
      cases sm with
      | switch t rest => exact (Prod.mk.inj h).1 ▸ (stackStep_leaves_mutex hs nofun).symm
      | retire t => exact (Prod.mk.inj h).1 ▸ (stackStep_leaves_mutex hs nofun).symm
      | _ => exact (Prod.mk.inj h).1 ▸ htop
  · next pass t fr hb =>
    rw [hb]
    cases hs : stackStep cfg x o g fr with
    | mk g1 sm =>
      have htop := stackStep_mutex hs
      rw [hs] at h
      cases sm with
      | switch u rest =>
        simp only at h
        split_ifs at h
        · exact (Prod.mk.inj h).1 ▸ htop
        · exact (Prod.mk.inj h).1 ▸ (stackStep_leaves_mutex hs nofun).symm
      | retire u =>
        simp only at h
        split_ifs at h
        · exact (Prod.mk.inj h).1 ▸ htop
        · exact (Prod.mk.inj h).1 ▸ (stackStep_leaves_mutex hs nofun).symm
      | enter rest => exact (Prod.mk.inj h).1 ▸ (stackStep_leaves_mutex hs nofun).symm
      | _ => exact (Prod.mk.inj h).1 ▸ htop
  · next pc fr hne hb =>
    rw [hb]
    have hg : g' = (bodyStep cfg g pc).1 := (Prod.mk.inj h).1.symm
    rw [hg, bodyStep_mutex]
    cases pc with
    | inTurn pass t => exact absurd rfl (hne pass t)
    | _ => rfl

/-! ## Where operations stand -/

/-- A release makes its two stores in their order. -/
def OpShape : Frame → Prop
  | .op todo => ∀ m, .mutexUnlock m ∈ todo →
    todo = [.mutexClearOwner m, .mutexUnlock m, .wake] ∨ todo = [.mutexUnlock m, .wake]
  | _ => True

/-- The release of `m` is between its two stores. -/
def Frame.unlocks (m : Nat) : Frame → Bool
  | .op (.mutexUnlock m' :: _) => m' = m
  | _ => false

theorem OpShape.micros (p : Op) : OpShape (.op p.micros) := by
  intro m hm
  cases p with
  | mutexRelease m' =>
    simp [Op.micros] at hm
    subst hm
    exact Or.inl rfl
  | taskDelete t => cases t <;> simp [Op.micros] at hm
  | _ => simp [Op.micros] at hm

theorem OpShape.call (c : Call) : OpShape c.frame := by
  cases c with
  | op p => exact OpShape.micros p
  | _ => trivial

/-- What is left of an operation after a step of it. -/
theorem microStep_todo (cfg : Config) (g : Globals) (m : Micro) (rest : List Micro) (heap : Bool) :
    (microStep cfg heap m rest g).1 = rest ∨ (microStep cfg heap m rest g).1 = [] ∨
      ∃ t, (microStep cfg heap m rest g).1 = [.markDead t, .wake, .retire t] := by
  cases m with
  | semGive s =>
    simp only [microStep]
    split_ifs
    · exact Or.inl rfl
    · exact Or.inr (Or.inl rfl)
  | queuePush q item =>
    simp only [microStep]
    split_ifs
    · exact Or.inl rfl
    · exact Or.inr (Or.inl rfl)
  | queuePop q =>
    simp only [microStep]
    split
    · exact Or.inl rfl
    · exact Or.inr (Or.inl rfl)
  | deleteSelf =>
    simp only [microStep]
    split
    · exact Or.inr (Or.inl rfl)
    · exact Or.inr (Or.inr ⟨_, rfl⟩)
  | retire t => exact Or.inr (Or.inl rfl)
  | create =>
    simp only [microStep]
    split
    · exact Or.inr (Or.inl rfl)
    · exact Or.inl rfl
  | _ => exact Or.inl rfl

theorem OpShape.micro {m : Micro} {rest : List Micro} {heap : Bool} (h : OpShape (.op (m :: rest))) :
    OpShape (.op (microStep cfg heap m rest g).1) := by
  intro k hk
  rcases microStep_todo cfg g m rest heap with he | he | ⟨t, he⟩
  · rw [he] at hk ⊢
    rcases h k (List.mem_cons_of_mem _ hk) with hl | hl
    · exact Or.inr (List.cons.inj hl).2
    · rw [(List.cons.inj hl).2] at hk
      simp at hk
  · rw [he] at hk
    exact absurd hk List.not_mem_nil
  · rw [he] at hk
    simp at hk

/-- Only the first store of a release leaves it between the two. -/
theorem microStep_unlocks {m : Micro} {rest : List Micro} {heap : Bool} {k : Nat}
    (h : OpShape (.op (m :: rest)))
    (hu : (Frame.op (microStep cfg heap m rest g).1).unlocks k = true) : m = .mutexClearOwner k := by
  rcases microStep_todo cfg g m rest heap with he | he | ⟨t, he⟩
  · rw [he] at hu
    cases rest with
    | nil => exact Bool.noConfusion hu
    | cons m' rest =>
      cases m' with
      | mutexUnlock k' =>
        obtain rfl : k' = k := of_decide_eq_true hu
        rcases h k' (List.mem_cons_of_mem _ List.mem_cons_self) with hl | hl
        · exact (List.cons.inj hl).1
        · exact absurd (List.cons.inj (List.cons.inj hl).2).1 nofun
      | _ => exact Bool.noConfusion hu
  · rw [he] at hu
    exact Bool.noConfusion hu
  · rw [he] at hu
    exact Bool.noConfusion hu

theorem unlocks_other {m : Nat} (h : f.isOp = false) : f.unlocks m = false := by
  cases f with
  | op todo => exact Bool.noConfusion h
  | _ => rfl

theorem OpShape.other (h : f.isOp = false) : OpShape f := by
  cases f with
  | op todo => exact Bool.noConfusion h
  | _ => trivial

theorem micros_unlocks (p : Op) (m : Nat) : (Frame.op p.micros).unlocks m = false := by
  cases p with
  | taskDelete t => cases t <;> rfl
  | _ => rfl

/-- A wait calls one operation, `mm_halow_sched_wake`. -/
theorem waitFrame_op {c : Cond} {evals : List Bool} {wt : Wait} :
    ∀ f' ∈ (waitFrame cfg g c evals wt).2.frames, f'.isOp = false ∨ f' = .op [.wake] := by
  unfold waitFrame
  generalize waitStep cfg (ticks g) g.teardown (g.cur = none) wt = r
  obtain ⟨w', act⟩ := r
  cases act with
  | eval =>
    simp only
    split_ifs
    · exact List.forall_mem_cons.mpr ⟨Or.inr rfl, List.forall_mem_singleton.mpr (Or.inl rfl)⟩
    · exact List.forall_mem_singleton.mpr (Or.inl rfl)
  | park timed wakeAt =>
    exact List.forall_mem_cons.mpr ⟨Or.inl rfl, List.forall_mem_singleton.mpr (Or.inl rfl)⟩
  | ret satisfied => exact fun f' hf' => absurd hf' List.not_mem_nil
  | _ => exact List.forall_mem_singleton.mpr (Or.inl rfl)

/-- Only the first store of a release leaves it between the two. -/
theorem frameStep_unlocks {m : Nat} (h : OpShape f) :
    ∀ f' ∈ (frameStep cfg x o g f).2.frames,
      f'.unlocks m = true → ∃ rest, f = .op (.mutexClearOwner m :: rest) := by
  refine frameStep_new (fun f' _ ho hu => ?_) (fun c timeoutMs hu => ?_) (fun p hu => ?_)
    (fun c evals wt hf f' hf' hu => ?_) fun m' rest heap hf hu => ?_
  · exact Bool.noConfusion ((unlocks_other ho).symm.trans hu)
  · exact Bool.noConfusion hu
  · exact Bool.noConfusion ((micros_unlocks p m).symm.trans hu)
  · rcases waitFrame_op f' hf' with ho | rfl
    · exact Bool.noConfusion ((unlocks_other ho).symm.trans hu)
    · exact Bool.noConfusion hu
  · subst hf
    exact ⟨rest, by rw [microStep_unlocks h hu]⟩

theorem opShape_rule : FrameRule cfg (fun _ => True) OpShape where
  call c := OpShape.call c
  resume r f h := by
    unfold resumeWith
    split
    · trivial
    · exact h
  save _ _ _ h := h
  step x o g f _ h := by
    refine frameStep_new (fun f' _ ho => OpShape.other ho) (fun c timeoutMs => trivial)
      OpShape.micros (fun c evals wt hf f' hf' => ?_) fun m rest heap hf => ?_
    · rcases waitFrame_op f' hf' with ho | rfl
      · exact OpShape.other ho
      · exact fun m hm => by simp at hm
    · subst hf
      exact h.micro

/-- No operation is in progress on the stack. -/
def NoOp (l : List Frame) : Prop := ∀ f ∈ l, f.isOp = false

/-- An operation makes no call, so it stands on top of the stack that is stepped. -/
def Context.OpsOnTop (c : Context) : Prop :=
  match c.body with
  | none => NoOp c.frames.tail
  | some b => NoOp c.frames ∧ NoOp b.frames.tail

structure OpsOnTop (s : Machine) : Prop where
  thread : s.thread.OpsOnTop
  pendsv : ∀ c, s.pendsv = some c → c.OpsOnTop
  saved : ∀ t, NoOp (s.g.task t).sp

theorem NoOp.nil : NoOp [] := fun _ hf => absurd hf List.not_mem_nil

theorem NoOp.tail {l : List Frame} (h : NoOp l) : NoOp l.tail :=
  fun f hf => h f (List.mem_of_mem_tail hf)

theorem isOp_resume {r : Bool} : (resumeWith r f).isOp = f.isOp := by
  unfold resumeWith
  split <;> rfl

theorem NoOp.returnTo {l : List Frame} {r : Bool} (h : NoOp l) : NoOp (returnTo r l) := by
  cases l with
  | nil => exact NoOp.nil
  | cons f rest =>
    obtain ⟨hf, hrest⟩ := List.forall_mem_cons.mp h
    exact List.forall_mem_cons.mpr ⟨isOp_resume.trans hf, hrest⟩

def Move.isCall : Move → Bool
  | .call _ _ => true
  | _ => false

theorem codeStep_caller {here f₁ callee : Frame} {fin : Move}
    (h : codeStep o here fin = .call f₁ callee) (hfin : fin.isCall = false) : f₁ = here := by
  unfold codeStep at h
  split at h
  · exact (Move.call.inj h).1.symm
  · rw [h] at hfin
    exact Bool.noConfusion hfin

theorem pollStep_caller {pc : PollPc} {f₁ callee : Frame}
    (h : (pollStep x o g pc).2 = .call f₁ callee) : f₁.isOp = false := by
  cases pc with
  | irqs =>
    have hcode : codeStep o (.poll .irqs) (.goto (.poll .timers)) = .call f₁ callee := h
    rw [codeStep_caller hcode rfl]
    rfl
  | timers =>
    have hcode : codeStep o (.poll .timers) (.goto (.poll .run)) = .call f₁ callee := h
    rw [codeStep_caller hcode rfl]
    rfl
  | run => exact (Move.call.inj h).1 ▸ rfl
  | initted => simp only [pollStep] at h; split_ifs at h
  | current => simp only [pollStep] at h; split_ifs at h
  | schedPending => simp only [pollStep] at h; split_ifs at h
  | _ => exact Move.noConfusion h

theorem yieldStep_caller {pc : YieldPc} {f₁ callee : Frame}
    (h : (yieldStep x o g pc).2 = .call f₁ callee) : f₁.isOp = false := by
  cases pc with
  | run => exact (Move.call.inj h).1 ▸ rfl
  | hook =>
    simp only [yieldStep] at h
    split_ifs at h
    rw [codeStep_caller h rfl]
    rfl
  | _ => exact Move.noConfusion h

theorem waitFrame_caller {c : Cond} {evals : List Bool} {wt : Wait} {f₁ callee : Frame}
    (h : (waitFrame cfg g c evals wt).2 = .call f₁ callee) : f₁.isOp = false := by
  unfold waitFrame at h
  generalize waitStep cfg (ticks g) g.teardown (g.cur = none) wt = r at h
  obtain ⟨w', act⟩ := r
  cases act with
  | eval =>
    simp only at h
    split_ifs at h
    exact (Move.call.inj h).1 ▸ rfl
  | park timed wakeAt => exact (Move.call.inj h).1 ▸ rfl
  | _ => exact Move.noConfusion h

/-- A frame that makes a call is not an operation's. -/
theorem frameStep_caller {f₁ callee : Frame} (h : (frameStep cfg x o g f).2 = .call f₁ callee) :
    f₁.isOp = false := by
  cases f with
  | poll pc => exact pollStep_caller h
  | yield pc => exact yieldStep_caller h
  | park timed wakeAt pc => cases pc <;> exact Move.noConfusion h
  | run pc =>
    cases pc with
    | check => simp only [frameStep, runEntryStep] at h; split_ifs at h
    | set => exact Move.noConfusion h
  | wait c evals wt => exact waitFrame_caller h
  | notifyWait timeoutMs =>
    simp only [frameStep, notifyWaitStep] at h
    split at h <;> exact Move.noConfusion h
  | mutexGet m timeoutMs pc =>
    cases pc with
    | enter =>
      simp only [frameStep, mutexGetStep] at h
      split_ifs at h
      exact (Move.call.inj h).1 ▸ rfl
    | _ => exact Move.noConfusion h
  | op todo =>
    simp only [frameStep] at h
    unfold opStep at h
    split at h <;> exact Move.noConfusion h
  | region pc =>
    cases pc with
    | inside =>
      have hcode : codeStep o (.region .inside) (.goto (.region .release)) = .call f₁ callee := h
      rw [codeStep_caller hcode rfl]
      rfl
    | _ => exact Move.noConfusion h

/-- Operations stand on top only of what is left of a stack. -/
def StackMove.OpsOnTop : StackMove → Prop
  | .frames l => NoOp l.tail
  | .switch _ rest => NoOp rest
  | .enter rest => NoOp rest
  | _ => True

theorem stackStep_onTop {l : List Frame} {sm : StackMove} (hl : NoOp l.tail)
    (h : stackStep cfg x o g l = (g', sm)) : sm.OpsOnTop := by
  obtain rfl : (stackStep cfg x o g l).2 = sm := congrArg Prod.snd h
  cases l with
  | nil =>
    simp only [stackStep]
    split
    · exact NoOp.nil
    · trivial
  | cons f rest =>
    simp only [stackStep]
    cases hmv : (frameStep cfg x o g f).2 with
    | goto f' => exact hl
    | call f' callee => exact List.forall_mem_cons.mpr ⟨frameStep_caller hmv, hl⟩
    | ret r => exact (NoOp.returnTo hl).tail
    | switch t => exact hl
    | retire t => trivial
    | enter => exact hl

theorem Context.OpsOnTop.stack (h : c.OpsOnTop) : NoOp c.stack.tail := by
  unfold Context.OpsOnTop at h
  unfold Context.stack
  split
  · next hb => rwa [hb] at h
  · next hb =>
    rw [hb] at h
    exact h.2
  · exact NoOp.nil

theorem Context.OpsOnTop.idle : (idle).OpsOnTop := NoOp.nil

/-- **Operations stay on top** in a step of a context. -/
theorem Context.OpsOnTop.step (hc : c.OpsOnTop) (hsp : ∀ t, NoOp (g.task t).sp)
    (h : c.step cfg x o g = (g', c')) :
    (c'.getD Sched.idle).OpsOnTop ∧ ∀ t, NoOp (g'.task t).sp := by
  unfold Context.OpsOnTop at hc
  cases Context.step_cases h with
  | frames hb hst =>
    rw [hb] at hc
    exact ⟨stackStep_onTop hc hst, saved_stack hsp hst⟩
  | enter hb hst =>
    rw [hb] at hc
    exact ⟨⟨stackStep_onTop hc hst, NoOp.nil⟩, saved_stack hsp hst⟩
  | finished hb hst => exact ⟨NoOp.nil, saved_stack hsp hst⟩
  | stuck => exact ⟨hc, hsp⟩
  | turn hb hst =>
    rw [hb] at hc
    exact ⟨⟨hc.1, stackStep_onTop hc.2 hst⟩, saved_stack hsp hst⟩
  | returned hb hst =>
    rw [hb] at hc
    exact ⟨⟨hc.1, NoOp.nil⟩, saved_stack hsp hst⟩
  | switch hb hst =>
    rw [hb] at hc
    exact ⟨⟨hc.1, NoOp.nil⟩, saved_save (saved_stack hsp hst) (stackStep_onTop hc.2 hst)⟩
  | retire hb hst =>
    rw [hb] at hc
    exact ⟨⟨hc.1, NoOp.nil⟩, saved_save (saved_stack hsp hst) NoOp.nil⟩
  | @body pc fr hb hpc =>
    rw [hb] at hc
    refine ⟨?_, fun t f hf => ?_⟩
    · unfold Context.OpsOnTop
      cases hbody : (bodyStep cfg g pc).2 with
      | none => exact hc.1.tail
      | some b =>
        have hframes : NoOp b.frames := bodyStep_frames hsp hbody
        exact ⟨hc.1, hframes.tail⟩
    · rw [bodyStep_sp] at hf
      exact hsp t f hf

/-- The second store of a release is followed by its wake. -/
theorem Context.step_unlock {m : Nat} {todo : List Micro}
    (ha : c.acting w₀ = some (w, .op (.mutexUnlock m :: todo))) (h : c.step cfg x o g = (g', c')) :
    (c'.getD idle).acting w₀ = some (w, .op todo) := by
  obtain ⟨frames, body⟩ := c
  cases body with
  | none =>
    cases frames with
    | nil => exact absurd ha (Option.some_ne_none _).symm
    | cons f rest =>
      obtain ⟨rfl, rfl⟩ := Prod.mk.inj (Option.some.inj ha)
      obtain rfl := (Prod.mk.inj h).2
      rfl
  | some b =>
    obtain ⟨pc, fr⟩ := b
    cases pc with
    | inTurn pass t =>
      cases fr with
      | nil => exact absurd ha (Option.some_ne_none _).symm
      | cons f rest =>
        obtain ⟨rfl, rfl⟩ := Prod.mk.inj (Option.some.inj ha)
        obtain rfl := (Prod.mk.inj h).2
        rfl
    | _ => exact absurd ha (Option.some_ne_none _).symm

/-- The head of a stack after a step is between the stores of a release only where the frame that
stepped made the first of them. -/
theorem stackStep_unlocks {m : Nat} {l l' : List Frame} (hl : NoOp l.tail) (hs : ∀ f ∈ l, OpShape f)
    (h : stackStep cfg x o g l = (g', .frames l')) {f' : Frame} (hf' : l'.head? = some f')
    (hu : f'.unlocks m = true) : ∃ rest, l.head? = some (.op (.mutexClearOwner m :: rest)) := by
  have hsm : (stackStep cfg x o g l).2 = .frames l' := congrArg Prod.snd h
  cases l with
  | nil =>
    simp only [stackStep] at hsm
    split at hsm
    · next call _ =>
      obtain rfl := StackMove.frames.inj hsm
      obtain rfl := Option.some.inj hf'
      cases call with
      | op p => exact Bool.noConfusion ((micros_unlocks p m).symm.trans hu)
      | _ => exact Bool.noConfusion hu
    · exact StackMove.noConfusion hsm
  | cons f rest =>
    have hnew := @frameStep_unlocks cfg x o g f m (hs f List.mem_cons_self)
    simp only [stackStep] at hsm
    cases hmv : (frameStep cfg x o g f).2 with
    | goto f₁ =>
      rw [hmv] at hsm hnew
      obtain rfl := StackMove.frames.inj hsm
      obtain rfl := Option.some.inj hf'
      obtain ⟨todo, rfl⟩ := hnew _ List.mem_cons_self hu
      exact ⟨todo, rfl⟩
    | call f₁ callee =>
      rw [hmv] at hsm hnew
      obtain rfl := StackMove.frames.inj hsm
      obtain rfl := Option.some.inj hf'
      obtain ⟨todo, rfl⟩ := hnew _ List.mem_cons_self hu
      exact ⟨todo, rfl⟩
    | ret r =>
      rw [hmv] at hsm
      obtain rfl := StackMove.frames.inj hsm
      have hno : f'.isOp = false := NoOp.returnTo hl f' (List.mem_of_mem_head? hf')
      exact Bool.noConfusion ((unlocks_other hno).symm.trans hu)
    | _ => rw [hmv] at hsm; exact StackMove.noConfusion hsm

theorem head_no_unlock {m : Nat} {l : List Frame} (hl : NoOp l) (hf : l.head? = some f) :
    f.unlocks m = false :=
  unlocks_other (hl f (List.mem_of_mem_head? hf))

/-- Outside a turn a run has no stack; at its end the context goes on with its own. -/
theorem bodyStep_acting {m : Nat} {pc : RunPc} {l : List Frame} (hl : NoOp l)
    (hsp : ∀ t, NoOp (g.task t).sp)
    (ha : (⟨l, (bodyStep cfg g pc).2⟩ : Context).acting w₀ = some (w, f)) : f.unlocks m = false := by
  cases pc with
  | resume pass t =>
    obtain ⟨f', hf', he⟩ := Option.map_eq_some_iff.mp ha
    obtain ⟨-, rfl⟩ := Prod.mk.inj he
    exact head_no_unlock (hsp t) hf'
  | inTurn pass t => exact absurd ha (Option.some_ne_none _).symm
  | finish =>
    obtain ⟨f', hf', he⟩ := Option.map_eq_some_iff.mp ha
    obtain ⟨-, rfl⟩ := Prod.mk.inj he
    exact head_no_unlock hl hf'
  | passTest pass =>
    simp only [bodyStep] at ha
    split_ifs at ha <;> exact absurd ha (Option.some_ne_none _).symm
  | walk pass t =>
    cases t with
    | none => exact absurd ha (Option.some_ne_none _).symm
    | some t =>
      simp only [bodyStep] at ha
      split_ifs at ha <;> exact absurd ha (Option.some_ne_none _).symm
  | passEnd pass =>
    simp only [bodyStep] at ha
    split_ifs at ha <;> exact absurd ha (Option.some_ne_none _).symm
  | _ => exact absurd ha (Option.some_ne_none _).symm

/-- A context comes between the two stores of a release only by making the first of them. -/
theorem Context.step_unlocks {m : Nat} (hc : c.OpsOnTop) (hsp : ∀ t, NoOp (g.task t).sp)
    (hs : ∀ f ∈ c.stack, OpShape f) (h : c.step cfg x o g = (g', c'))
    (ha : (c'.getD idle).acting w₀ = some (w, f)) (hu : f.unlocks m = true) :
    ∃ rest, c.acting w₀ = some (w, .op (.mutexClearOwner m :: rest)) := by
  -- the frame that steps is not itself between the stores: the wake would follow
  have hnot : ∀ w₁ f₁, c.acting w₀ = some (w₁, f₁) → f₁.unlocks m = false := by
    intro w₁ f₁ hact
    refine Bool.eq_false_iff.mpr fun hu₁ => ?_
    have hmem : f₁ ∈ c.stack := by
      obtain ⟨f₂, hf₂, he⟩ := Option.map_eq_some_iff.mp hact
      exact (Prod.mk.inj he).2 ▸ List.mem_of_mem_head? hf₂
    have hshape := hs f₁ hmem
    unfold Frame.unlocks at hu₁
    split at hu₁
    · next m' todo =>
      obtain rfl := of_decide_eq_true hu₁
      have hnext := Context.step_unlock hact h
      obtain ⟨-, rfl⟩ := Prod.mk.inj (Option.some.inj (ha.symm.trans hnext))
      rcases hshape m' List.mem_cons_self with hl | hl
      · exact Micro.noConfusion (List.cons.inj hl).1
      · rw [(List.cons.inj hl).2] at hu
        exact Bool.noConfusion hu
    · exact Bool.noConfusion hu₁
  have hstack := hc.stack
  unfold Context.OpsOnTop at hc
  unfold Context.acting Context.stack Context.who at hnot ⊢
  unfold Context.stack at hs hstack
  cases Context.step_cases h with
  | frames hb hst =>
    rw [hb] at hs hstack ⊢
    obtain ⟨f', hf', he⟩ := Option.map_eq_some_iff.mp ha
    obtain ⟨rfl, rfl⟩ := Prod.mk.inj he
    obtain ⟨rest, hrest⟩ := stackStep_unlocks hstack hs hst hf' hu
    exact ⟨rest, by rw [hrest]; rfl⟩
  | enter hb hst => exact absurd ha (Option.some_ne_none _).symm
  | finished hb hst => exact absurd ha (Option.some_ne_none _).symm
  | stuck => exact Bool.noConfusion ((hnot _ _ ha).symm.trans hu)
  | turn hb hst =>
    rw [hb] at hs hstack ⊢
    obtain ⟨f', hf', he⟩ := Option.map_eq_some_iff.mp ha
    obtain ⟨rfl, rfl⟩ := Prod.mk.inj he
    obtain ⟨rest, hrest⟩ := stackStep_unlocks hstack hs hst hf' hu
    exact ⟨rest, by rw [hrest]; rfl⟩
  | returned hb hst =>
    obtain ⟨-, rfl⟩ := Prod.mk.inj (Option.some.inj ha)
    exact Bool.noConfusion hu
  | switch hb hst => exact absurd ha (Option.some_ne_none _).symm
  | retire hb hst => exact absurd ha (Option.some_ne_none _).symm
  | body hb hpc =>
    rw [hb] at hc
    exact Bool.noConfusion ((bodyStep_acting hc.1 hsp ha).symm.trans hu)

/-! ## The record -/

/-- A mutex and its holders: none and unlocked, or one and locked, for which the owner stands until
its release begins. -/
def HoldOk (l : List Holder) (mx : Mutex) : Prop :=
  (l = [] ∧ mx.locked = false) ∨
    ∃ h, l = [h] ∧ mx.locked = true ∧ (h.releasing = false → mx.owner = h.task)

/-- What a step of `w`'s frame may rely on: it begins a release of a mutex that it holds, and ends
one that it has begun. -/
structure MayStep (hs : Nat → List Holder) (w : Who) (f : Frame) : Prop where
  clears : ∀ m rest, f = .op (.mutexClearOwner m :: rest) →
    ∃ h ∈ hs m, h.who = w ∧ h.releasing = false
  unlocks : ∀ m, f.unlocks m = true → ∃ k, hs m = [⟨w, k, true⟩]

variable {hs : Nat → List Holder} {m : Nat}

/-- The one holder begins its release. -/
theorem HoldOk.begins {l : List Holder} {mx : Mutex} (h : HoldOk l mx)
    (hw : ∃ h ∈ l, h.who = w ∧ h.releasing = false) :
    mx.locked = true ∧ ∃ k, l = [⟨w, k, false⟩] := by
  obtain ⟨holder, hmem, rfl, hrel⟩ := hw
  rcases h with ⟨rfl, -⟩ | ⟨one, rfl, hlocked, -⟩
  · exact absurd hmem List.not_mem_nil
  · obtain rfl := List.mem_singleton.mp hmem
    exact ⟨hlocked, holder.task, by rw [← hrel]⟩

/-- **A step of a frame keeps mutexes and holders in line.** -/
theorem HoldOk.after (h : ∀ m, HoldOk (hs m) (g.mutex m)) (hm : MayStep hs w f) (m : Nat) :
    HoldOk (holdersAfter g w hs f m) (mutexAfter g f m) := by
  unfold holdersAfter mutexAfter
  split
  · next m' evals wt =>
    by_cases hpc : wt.pc.evaluates = true
    · cases hl : (g.mutex m').locked with
      | true =>
        simp only [hpc, Bool.true_eq_false, and_false, if_false, if_true, mutexAcquired, hl]
        rw [Function.update_eq_self]
        exact h m
      | false =>
        simp only [hpc, and_self, if_true, mutexAcquired, hl, Bool.false_eq_true, if_false]
        by_cases hmm : m = m'
        · subst hmm
          rw [Function.update_self, Function.update_self]
          rcases h m with ⟨hnil, -⟩ | ⟨-, -, hlocked, -⟩
          · exact Or.inr ⟨_, by rw [hnil], rfl, fun _ => rfl⟩
          · exact Bool.noConfusion (hl.symm.trans hlocked)
        · rw [Function.update_of_ne hmm, Function.update_of_ne hmm]
          exact h m
    · simp only [hpc, Bool.false_eq_true, false_and, if_false]
      exact h m
  · next m' rest =>
    by_cases hmm : m = m'
    · subst hmm
      obtain ⟨hlocked, k, hk⟩ := (h m).begins (hm.clears m rest rfl)
      simp only [Function.update_self, hk, List.map_cons, List.map_nil, if_true]
      exact Or.inr ⟨_, rfl, hlocked, fun hf => Bool.noConfusion hf⟩
    · simp only [Function.update_of_ne hmm]
      exact h m
  · next m' rest =>
    by_cases hmm : m = m'
    · subst hmm
      obtain ⟨k, hk⟩ := hm.unlocks m (decide_eq_true rfl)
      simp only [Function.update_self, hk]
      exact Or.inl ⟨by simp, rfl⟩
    · simp only [Function.update_of_ne hmm]
      exact h m
  · exact h m

/-- The first store of a release puts its context between the two. -/
theorem holdersAfter_clears {rest : List Micro} (h : HoldOk (hs m) (g.mutex m))
    (hm : MayStep hs w (.op (.mutexClearOwner m :: rest))) :
    ∃ k, holdersAfter g w hs (.op (.mutexClearOwner m :: rest)) m = [⟨w, k, true⟩] := by
  obtain ⟨-, k, hk⟩ := h.begins (hm.clears m rest rfl)
  exact ⟨k, by simp [holdersAfter, hk]⟩

/-- A release under way in another context is left alone. -/
theorem holdersAfter_other {w' : Who} {k : Option TaskId} (h : HoldOk (hs m) (g.mutex m))
    (hm : MayStep hs w f) (hne : w' ≠ w) (hk : hs m = [⟨w', k, true⟩]) :
    holdersAfter g w hs f m = [⟨w', k, true⟩] := by
  unfold holdersAfter
  split
  · next m' evals wt =>
    split_ifs with hc
    · by_cases hmm : m = m'
      · subst hmm
        rcases h with ⟨hnil, -⟩ | ⟨-, -, hlocked, -⟩
        · exact absurd (hk.symm.trans hnil) (List.cons_ne_nil _ _)
        · exact Bool.noConfusion (hc.2.symm.trans hlocked)
      · rw [Function.update_of_ne hmm, hk]
    · exact hk
  · next m' rest =>
    by_cases hmm : m = m'
    · subst hmm
      obtain ⟨holder, hmem, -, hrel⟩ := hm.clears m rest rfl
      rw [hk] at hmem
      obtain rfl := List.mem_singleton.mp hmem
      exact Bool.noConfusion hrel
    · rw [Function.update_of_ne hmm, hk]
  · next m' rest =>
    by_cases hmm : m = m'
    · subst hmm
      obtain ⟨k', hk'⟩ := hm.unlocks m (decide_eq_true rfl)
      have := List.singleton_inj.mp (hk.symm.trans hk')
      exact absurd (Holder.mk.inj this).1 hne
    · rw [Function.update_of_ne hmm, hk]
  · exact hk

theorem holdersAfter_isr (hs' : ∀ m, ∀ h ∈ hs m, h.who ≠ .isr) (hw : w ≠ .isr) :
    ∀ h ∈ holdersAfter g w hs f m, h.who ≠ .isr := by
  unfold holdersAfter
  split
  · next m' evals wt =>
    split_ifs
    · by_cases hmm : m = m'
      · subst hmm
        rw [Function.update_self]
        exact List.forall_mem_cons.mpr ⟨hw, hs' m⟩
      · rw [Function.update_of_ne hmm]
        exact hs' m
    · exact hs' m
  · next m' rest =>
    by_cases hmm : m = m'
    · subst hmm
      rw [Function.update_self]
      intro h hh
      obtain ⟨h', hh', rfl⟩ := List.mem_map.mp hh
      have := hs' m h' hh'
      split_ifs <;> exact this
    · rw [Function.update_of_ne hmm]
      exact hs' m
  · next m' rest =>
    by_cases hmm : m = m'
    · subst hmm
      rw [Function.update_self]
      exact fun h hh => hs' m h (List.mem_of_mem_filter hh)
    · rw [Function.update_of_ne hmm]
      exact hs' m
  · exact hs' m

/-- What a context may rely on. -/
structure Context.Releasing (c : Context) (w₀ : Who) (hs : Nat → List Holder) : Prop where
  unlocks : ∀ w f m, c.acting w₀ = some (w, f) → f.unlocks m = true → ∃ k, hs m = [⟨w, k, true⟩]

/-- What holds of mutexes and holders after a step of a context. -/
structure ContextAfter (c : Context) (w₀ : Who) (hs hs' : Nat → List Holder) (g' : Globals)
    (c' : Option Context) : Prop where
  mutex : ∀ m, HoldOk (hs' m) (g'.mutex m)
  releasing : (c'.getD idle).Releasing w₀ hs'
  other : ∀ w' k m, (∀ w f, c.acting w₀ = some (w, f) → w' ≠ w) → hs m = [⟨w', k, true⟩] →
    hs' m = [⟨w', k, true⟩]

theorem topMutex_acting (h : c.acting w₀ = some (w, f)) : topMutex g c.stack = mutexAfter g f := by
  obtain ⟨f', hf', he⟩ := Option.map_eq_some_iff.mp h
  obtain ⟨-, rfl⟩ := Prod.mk.inj he
  simp only [topMutex, hf']

theorem topMutex_none (h : c.acting w₀ = none) : topMutex g c.stack = g.mutex := by
  simp only [topMutex, Option.map_eq_none_iff.mp h]

/-- **A step of a context keeps mutexes and holders in line.** -/
theorem Context.Releasing.step (hr : c.Releasing w₀ hs) (hm : ∀ m, HoldOk (hs m) (g.mutex m))
    (hd : ∀ w m rest, c.acting w₀ = some (w, .op (.mutexClearOwner m :: rest)) →
      ∃ h ∈ hs m, h.who = w ∧ h.releasing = false)
    (hc : c.OpsOnTop) (hsp : ∀ t, NoOp (g.task t).sp) (hs' : ∀ f ∈ c.stack, OpShape f)
    (h : c.step cfg x o g = (g', c')) :
    ContextAfter c w₀ hs (holdersOf g hs (c.acting w₀)) g' c' := by
  have hmutex := Context.step_mutex h
  have hunlocks : ∀ w f m, (c'.getD idle).acting w₀ = some (w, f) → f.unlocks m = true →
      ∃ rest, c.acting w₀ = some (w, .op (.mutexClearOwner m :: rest)) :=
    fun _ _ _ => Context.step_unlocks hc hsp hs' h
  cases hact : c.acting w₀ with
  | none =>
    rw [topMutex_none hact] at hmutex
    refine ⟨fun m => ?_, ⟨fun w f m ha hu => ?_⟩, fun w' k m _ hk => hk⟩
    · rw [hmutex]
      exact hm m
    · obtain ⟨rest, hrest⟩ := hunlocks _ _ _ ha hu
      exact absurd (hact.symm.trans hrest) (Option.some_ne_none _).symm
  | some a =>
    obtain ⟨w, f⟩ := a
    rw [topMutex_acting hact] at hmutex
    have hmay : MayStep hs w f :=
      ⟨fun m rest hf => hd w m rest (hf ▸ hact), fun m hu => hr.unlocks w f m hact hu⟩
    refine ⟨fun m => ?_, ⟨fun w' f' m ha hu => ?_⟩, fun w' k m hne hk => ?_⟩
    · rw [hmutex]
      exact HoldOk.after hm hmay m
    · obtain ⟨rest, hrest⟩ := hunlocks _ _ _ ha hu
      obtain ⟨rfl, rfl⟩ := Prod.mk.inj (Option.some.inj (hact.symm.trans hrest))
      exact holdersAfter_clears (hm m) hmay
    · exact holdersAfter_other (hm m) hmay (hne w f hact) hk

/-- **The invariant**: the record is in line with the mutexes, and a release that is under way is
that of the one holder. -/
structure Holding (p : Tracked) : Prop where
  control : Control p.machine
  shape : AllFrames OpShape p.machine
  onTop : OpsOnTop p.machine
  mutex : ∀ m, HoldOk (p.holders m) (p.machine.g.mutex m)
  thread : p.machine.thread.Releasing .thread p.holders
  pendsv : ∀ c, p.machine.pendsv = some c → c.Releasing .irq p.holders
  isrShape : ∀ todo ∈ p.machine.isrs, OpShape (.op todo)
  isrs : ∀ todo ∈ p.machine.isrs, ∀ m, (Frame.op todo).unlocks m = false
  noIsr : ∀ m, ∀ h ∈ p.holders m, h.who ≠ .isr

theorem Context.All.stack {F : Frame → Prop} (h : c.All F) : ∀ f ∈ c.stack, F f := by
  unfold Context.stack
  split
  · exact h.frames
  · next hb => exact h.body _ hb
  · exact fun f hf => absurd hf List.not_mem_nil

theorem Context.acting_who (h : c.acting w₀ = some (w, f)) : w = c.who w₀ := by
  obtain ⟨_, _, he⟩ := Option.map_eq_some_iff.mp h
  exact (Prod.mk.inj he).1.symm

/-- The contexts execute for different parties. -/
theorem Control.acting_ne {s : Machine} {w' : Who} {f' : Frame} (h : Control s)
    (hp : s.pendsv = some c) (ht : s.thread.acting .thread = some (w, f))
    (ha : c.acting .irq = some (w', f')) : w ≠ w' := by
  unfold Control at h
  rw [hp] at h
  rw [Context.acting_who ht, Context.acting_who ha]
  rcases h.1.one with hb | hb
  · have hirq : c.who .irq = .irq := by simp only [Context.who, hb]
    rw [hirq]
    unfold Context.who
    split <;> exact Who.noConfusion
  · have hthread : s.thread.who .thread = .thread := by simp only [Context.who, hb]
    rw [hthread]
    unfold Context.who
    split <;> exact Who.noConfusion

theorem Context.who_isr (hw : w₀ ≠ .isr) (ha : c.acting w₀ = some (w, f)) : w ≠ .isr := by
  rw [Context.acting_who ha]
  unfold Context.who
  split
  · exact Who.noConfusion
  · exact hw

theorem holdersOf_isr (hs' : ∀ m, ∀ h ∈ hs m, h.who ≠ .isr) (hw : w₀ ≠ .isr) (m : Nat) :
    ∀ h ∈ holdersOf g hs (c.acting w₀) m, h.who ≠ .isr := by
  cases ha : c.acting w₀ with
  | none => exact hs' m
  | some a => exact holdersAfter_isr hs' (Context.who_isr hw ha)

theorem Context.Releasing.idle : (idle).Releasing w₀ hs :=
  ⟨fun _ _ _ ha => absurd ha (Option.some_ne_none _).symm⟩

variable {p q : Tracked} {e : Event}

theorem Holding.step (h : Holding p) (hs : TrackStep cfg p e q) : Holding q := by
  obtain ⟨hstep, hrel, hq⟩ := hs
  obtain ⟨u, hs'⟩ := q
  obtain ⟨s, hs⟩ := p
  simp only at hstep hq
  have hctl := h.control.step hstep
  have hshape := hstep.frames opShape_rule trivial h.shape
  unfold track at hq
  subst hq
  cases hstep.cases with
  | @isr p hp =>
    exact ⟨hctl, hshape, ⟨h.onTop.thread, h.onTop.pendsv, h.onTop.saved⟩, h.mutex, h.thread, h.pendsv,
      List.forall_mem_cons.mpr ⟨OpShape.micros p, h.isrShape⟩,
      List.forall_mem_cons.mpr ⟨micros_unlocks p, h.isrs⟩, h.noIsr⟩
  | @isrDone o rest hi =>
    have hex : executes s (.isrStep o) = some (.isr, .op []) := by simp [executes, hi]
    simp only [hex]
    have hmem : ∀ todo ∈ rest, todo ∈ s.isrs := fun todo ht => hi ▸ List.mem_cons_of_mem _ ht
    exact ⟨hctl, hshape, ⟨h.onTop.thread, h.onTop.pendsv, h.onTop.saved⟩, h.mutex, h.thread, h.pendsv,
      fun todo ht => h.isrShape todo (hmem todo ht), fun todo ht => h.isrs todo (hmem todo ht), h.noIsr⟩
  | @isrStep o m todo rest hi =>
    have hex : executes s (.isrStep o) = some (.isr, .op (m :: todo)) := by simp [executes, hi]
    have hmem : ∀ todo ∈ rest, todo ∈ s.isrs := fun todo ht => hi ▸ List.mem_cons_of_mem _ ht
    have htop : m :: todo ∈ s.isrs := hi ▸ List.mem_cons_self
    have hclear : ∀ k, m ≠ .mutexClearOwner k := by
      rintro k rfl
      obtain ⟨holder, hh, hw, -⟩ := hrel .isr k todo hex
      exact h.noIsr k holder hh hw
    have hunlock : ∀ k, m ≠ .mutexUnlock k := by
      rintro k rfl
      exact Bool.noConfusion ((h.isrs _ htop k).symm.trans (decide_eq_true rfl))
    obtain ⟨hsame, hmx⟩ : holdersAfter s.g .isr hs (.op (m :: todo)) = hs ∧
        mutexAfter (advance o.dt s.g) (.op (m :: todo)) = s.g.mutex := by
      cases m with
      | mutexClearOwner k => exact absurd rfl (hclear k)
      | mutexUnlock k => exact absurd rfl (hunlock k)
      | _ => exact ⟨rfl, rfl⟩
    simp only [hex, holdersOf, hsame]
    have hsaved : ∀ t, NoOp ((microStep cfg o.heap m todo (advance o.dt s.g)).2.task t).sp := by
      intro t f hf
      have hsp : ((microStep cfg o.heap m todo (advance o.dt s.g)).2.task t).sp = (s.g.task t).sp ∨
          ((microStep cfg o.heap m todo (advance o.dt s.g)).2.task t).sp = [] :=
        microStep_sp m todo o.heap t
      rcases hsp with ht | ht
      · exact h.onTop.saved t f (ht ▸ hf)
      · rw [ht] at hf
        exact absurd hf List.not_mem_nil
    refine ⟨hctl, hshape, ⟨h.onTop.thread, h.onTop.pendsv, hsaved⟩, fun k => ?_, h.thread, h.pendsv,
      List.forall_mem_cons.mpr ⟨(h.isrShape _ htop).micro, fun todo ht => h.isrShape todo (hmem todo ht)⟩,
      List.forall_mem_cons.mpr ⟨fun k => Bool.eq_false_iff.mpr fun hu => ?_,
        fun todo ht => h.isrs todo (hmem todo ht)⟩, h.noIsr⟩
    · rw [microStep_mutex, hmx]
      exact h.mutex k
    · exact hclear k (microStep_unlocks (h.isrShape _ htop) hu)
  | dispatch hi hp =>
    refine ⟨hctl, hshape, ⟨h.onTop.thread, fun c hc => ?_, h.onTop.saved⟩, h.mutex, h.thread,
      fun c hc => ?_, h.isrShape, h.isrs, h.noIsr⟩
    · obtain rfl := Option.some.inj hc
      exact Context.OpsOnTop.idle
    · obtain rfl := Option.some.inj hc
      exact Context.Releasing.idle
  | @pendsv o c g' c' hi hp hc =>
    have hex : executes s (.pendsv o) = c.acting .irq := by simp [executes, hp]
    simp only [Releases, hex] at hrel
    have hafter := (h.pendsv c hp).step (g := advance o.dt s.g) h.mutex
      (fun w m rest ha => hrel w m rest ha) (h.onTop.pendsv c hp) h.onTop.saved
      (h.shape.pendsv c hp).stack hc
    obtain ⟨htop, hsaved⟩ := (h.onTop.pendsv c hp).step (g := advance o.dt s.g) h.onTop.saved hc
    simp only [hex]
    refine ⟨hctl, hshape, ⟨h.onTop.thread, fun d hd => ?_, hsaved⟩, hafter.mutex, ⟨fun w f m ha hu => ?_⟩,
      fun d hd => ?_, h.isrShape, h.isrs, holdersOf_isr h.noIsr Who.noConfusion⟩
    · obtain rfl : c' = some d := hd
      exact htop
    · obtain ⟨k, hk⟩ := h.thread.unlocks w f m ha hu
      exact ⟨k, hafter.other w k m (fun w' f' ha' => h.control.acting_ne hp ha ha') hk⟩
    · obtain rfl : c' = some d := hd
      exact hafter.releasing
  | @thread o g' c' hi hp hc =>
    have hex : executes s (.thread o) = s.thread.acting .thread := rfl
    simp only [Releases, hex] at hrel
    have hafter := h.thread.step (g := advance o.dt s.g) h.mutex
      (fun w m rest ha => hrel w m rest ha) h.onTop.thread h.onTop.saved h.shape.thread.stack hc
    obtain ⟨htop, hsaved⟩ := h.onTop.thread.step (g := advance o.dt s.g) h.onTop.saved hc
    simp only [hex]
    have hno : ∀ d, s.pendsv ≠ some d := fun d hd => absurd (hp.symm.trans hd) (Option.some_ne_none d).symm
    exact ⟨hctl, hshape, ⟨htop, fun d hd => absurd hd (hno d), hsaved⟩, hafter.mutex, hafter.releasing,
      fun d hd => absurd hd (hno d), h.isrShape, h.isrs, holdersOf_isr h.noIsr Who.noConfusion⟩

/-! ## A get that fails -/

/-- A frame of a get on the mutex `m`. -/
def Frame.gets (m : Nat) : Frame → Bool
  | .wait (.mutexAcquired m') _ _ => m' = m
  | .mutexGet m' _ _ => m' = m
  | _ => false

/-- The get has taken the mutex: an evaluation of this wait has, or the first wait of two. -/
def Frame.took : Frame → Bool
  | .wait _ evals _ => evals.contains true
  | .mutexGet _ _ .done => true
  | _ => false

/-- A step of a get: it returns whether it has taken the mutex; having taken it stays; and where it
has not, the step changed no mutex. -/
def GetStep (g : Globals) (f : Frame) (r : Globals × Move) : Prop :=
  match r.2 with
  | .ret b => b = f.took ∧ r.1.mutex = g.mutex
  | .goto f' => (f.took = true → f'.took = true) ∧ (f'.took = false → r.1.mutex = g.mutex)
  | .call f' _ => (f.took = true → f'.took = true) ∧ (f'.took = false → r.1.mutex = g.mutex)
  | _ => False

/-- All steps of a get are such, and a first wait hands on what it returns. -/
structure GetOk (cfg : Config) (f : Frame) : Prop where
  step : ∀ m x o g, f.gets m = true → GetStep g f (frameStep cfg x o g f)
  resume : ∀ m timeoutMs b, f = .mutexGet m timeoutMs .first → (resumeWith b f).took = b

/-- An evaluation that does not give the mutex changes nothing. -/
theorem evalCond_refused (h : (evalCond cfg (.mutexAcquired m) g).1 = false) :
    (evalCond cfg (.mutexAcquired m) g).2 = g := by
  simp only [evalCond, mutexAcquired] at h ⊢
  cases hl : (g.mutex m).locked with
  | true => simp only [if_true, Function.update_eq_self]
  | false => simp [hl] at h

theorem WaitOk.getStep {evals : List Bool} {wt : Wait}
    (h : WaitOk (.wait (.mutexAcquired m) evals wt)) :
    GetStep g (.wait (.mutexAcquired m) evals wt) (waitFrame cfg g (.mutexAcquired m) evals wt) := by
  have hret : ReturnsLast cfg (.wait (.mutexAcquired m) evals wt) := h.returnsLast
  have hret := hret g (.mutexAcquired m) evals wt
  unfold waitFrame at hret ⊢
  generalize waitStep cfg (ticks g) g.teardown (g.cur = none) wt = r at hret ⊢
  obtain ⟨w', act⟩ := r
  cases act with
  | eval =>
    cases he : (evalCond cfg (.mutexAcquired m) g).1 with
    | true => simp [GetStep, he, Cond.wakes, Frame.took]
    | false => simp [GetStep, he, Cond.wakes, Frame.took, evalCond_refused he]
  | ret b =>
    obtain ⟨before, rfl, hb⟩ := hret b rfl rfl
    refine ⟨?_, rfl⟩
    cases b with
    | true => simp [Frame.took]
    | false =>
      have : true ∉ before := fun ht => Bool.noConfusion (hb true ht)
      simp [Frame.took, this]
  | _ => exact ⟨id, fun _ => rfl⟩

theorem WaitOk.getOk (h : WaitOk f) : GetOk cfg f where
  step m x o g hg := by
    unfold Frame.gets at hg
    split at hg
    · exact h.getStep
    · next m' timeoutMs pc =>
      cases pc with
      | enter =>
        simp only [frameStep, mutexGetStep]
        split_ifs <;> exact ⟨id, fun _ => rfl⟩
      | done => exact ⟨rfl, rfl⟩
      | _ => exact ⟨id, fun _ => rfl⟩
    · exact Bool.noConfusion hg
  resume m timeoutMs b hf := by
    subst hf
    cases b <;> rfl

/-! ## Mutual exclusion in every run -/

/-- **Mutual exclusion** of the contexts that get and release mutexes. -/
structure MutexExclusive (cfg : Config) (p : Tracked) : Prop where
  /-- At most one context is between a successful get and the end of its release. -/
  one : ∀ m, (p.holders m).length ≤ 1
  /-- The mutex is locked exactly while one is. -/
  locked : ∀ m, (p.machine.g.mutex m).locked = true ↔ p.holders m ≠ []
  /-- Until its release has begun, the owner is the task that was current in the successful get. -/
  owner : ∀ m, ∀ h ∈ p.holders m, h.releasing = false → (p.machine.g.mutex m).owner = h.task
  /-- A get returns true exactly where it took the mutex, and no step of it changed a mutex where it
  did not. -/
  gets : AllFrames (GetOk cfg) p.machine

theorem Holding.exclusive (h : Holding p) (hw : AllFrames WaitOk p.machine) :
    MutexExclusive cfg p where
  one m := by
    rcases h.mutex m with ⟨hl, -⟩ | ⟨_, hl, -⟩ <;> simp [hl]
  locked m := by
    rcases h.mutex m with ⟨hl, hm⟩ | ⟨_, hl, hm, -⟩ <;> simp [hl, hm]
  owner m holder hh hr := by
    rcases h.mutex m with ⟨hl, -⟩ | ⟨one, hl, -, ho⟩
    · rw [hl] at hh
      exact absurd hh List.not_mem_nil
    · rw [hl] at hh
      obtain rfl := List.mem_singleton.mp hh
      exact ho hr
  gets := hw.imp fun _ => WaitOk.getOk

variable {now : Nat} {takenMs : Nat → UInt32} {sem : Nat → Sem} {semb : Nat → Bool}
  {queue : Nat → Queue} {tr : List Event}

/-- The machine at boot, with mutexes as `mmosal_mutex_create` makes them. -/
def bootTracked (now : Nat) (takenMs : Nat → UInt32) (sem : Nat → Sem) (semb : Nat → Bool)
    (queue : Nat → Queue) : Tracked :=
  ⟨boot (bootGlobals now (fun m => ⟨none, takenMs m, false⟩) sem semb queue), fun _ => []⟩

theorem Holding.boot : Holding (bootTracked now takenMs sem semb queue) where
  control := Control.boot
  shape := AllFrames.boot _ fun _ => rfl
  onTop := ⟨Context.OpsOnTop.idle, nofun, fun _ => NoOp.nil⟩
  mutex _ := Or.inl ⟨rfl, rfl⟩
  thread := Context.Releasing.idle
  pendsv := nofun
  isrShape := nofun
  isrs := nofun
  noIsr _ _ hh := absurd hh List.not_mem_nil

/-- **Mutexes exclude**: in every run in which only a context that holds a mutex releases it. -/
theorem mutex_exclusive (h : Run (TrackStep cfg) (bootTracked now takenMs sem semb queue) tr p) :
    MutexExclusive cfg p := by
  suffices hb : Holding p ∧ AllFrames WaitOk p.machine from hb.1.exclusive hb.2
  refine h.inv (I := fun p => Holding p ∧ AllFrames WaitOk p.machine)
    ⟨Holding.boot, AllFrames.boot _ fun _ => rfl⟩ fun s e u hs hst => ?_
  exact ⟨hs.1.step hst, hst.step.frames waitOk_rule trivial hs.2⟩

/-- A tracked step by evaluation. -/
def trackExec (p : Tracked) (e : Event) : Option Tracked :=
  let holds := match executes p.machine e with
    | some (w, .op (.mutexClearOwner m :: _)) =>
      (p.holders m).any fun h => h.who = w && h.releasing = false
    | _ => true
  if holds then (step .defaults p.machine e).map fun s => ⟨s, track p e⟩ else none

theorem trackExec_step {e : Event} (h : trackExec p e = some q) : TrackStep .defaults p e q := by
  unfold trackExec at h
  simp only at h
  split_ifs at h with hh
  obtain ⟨s, hs, rfl⟩ := Option.map_eq_some_iff.mp h
  refine ⟨hs, fun w m rest he => ?_, rfl⟩
  rw [he] at hh
  obtain ⟨holder, hmem, hb⟩ := List.any_eq_true.mp hh
  obtain ⟨hw, hr⟩ := Bool.and_eq_true_iff.mp hb
  exact ⟨holder, hmem, of_decide_eq_true hw, of_decide_eq_true hr⟩

/-- Thread context gets mutex 0 and makes the first store of its release; PendSV cuts in and tries
to get it. -/
def getBetweenStores : List Event :=
  (.thread (calling (.mutexGet 0 0)) :: List.replicate 9 (.thread go)) ++
    [.thread (calling (.op (.mutexRelease 0))), .thread go, .dispatch] ++
    (.pendsv (calling (.mutexGet 0 waitForever)) :: List.replicate 6 (.pendsv go))

theorem mutex_exclusive_getBetweenStores : ∃ p,
    Run (TrackStep .defaults) (bootTracked 0 (fun _ => 0) (fun _ => semCreate 1 0) (fun _ => false)
      fun _ => queueInit .ilp32 4 4 0x20000000 fun _ => 0) getBetweenStores p ∧
      p.holders 0 = [⟨.thread, none, true⟩] ∧ MutexExclusive .defaults p := by
  obtain ⟨p, hp, hh⟩ := Run.ofFold_any (p := fun p => p.holders 0 = [⟨.thread, none, true⟩])
    (fun _ _ _ => trackExec_step)
    (by decide +kernel : (getBetweenStores.foldlM trackExec (bootTracked 0 (fun _ => 0)
      (fun _ => semCreate 1 0) (fun _ => false) fun _ => queueInit .ilp32 4 4 0x20000000 fun _ => 0)).any
        (fun p => p.holders 0 = [⟨.thread, none, true⟩]) = true)
  exact ⟨p, hp, of_decide_eq_true hh, mutex_exclusive hp⟩

end MmHalow.Sched
