import MmHalow.Sched.Control

/-!
# Objects, and the waits on them

The OSAL's objects change only in an evaluation of a wait's condition and in a step of an
operation; everything else the scheduler does leaves them alone. What an evaluation gave is kept in
the frame of its wait.

* `Step.objects`: **the rule for a property of the objects**: one obligation for the evaluations,
  one for the operations.
* `Step.frames`: the rule for a property of all frames, those of parked tasks included.
* `WaitOk`: how a wait goes by what its evaluations gave.
* `waits_run`: **every wait returns what its last evaluation gave, and no other gave true.**
-/

namespace MmHalow.Sched

open MmHalow.Lib MmHalow.Lib.Clock MmHalow.Osal

variable {cfg : Config} {x : Ctx} {o : Choice} {g g' : Globals} {f : Frame} {mv : Move}

/-! ## The rule for the objects -/

/-- The OSAL's objects, the notification counts and the record of what took effect. -/
structure Objects where
  mutex : Nat → Mutex
  sem : Nat → Sem
  semb : Nat → Bool
  queue : Nat → Queue
  notify : TaskId → UInt32
  log : List Effect

def objects (g : Globals) : Objects :=
  ⟨g.mutex, g.sem, g.semb, g.queue, fun t => (g.task t).notify, g.log⟩

/-- A property of the objects that evaluations and operations keep. -/
structure ObjectRule (cfg : Config) (P : Globals → Prop) : Prop where
  objects : ∀ g g', objects g' = objects g → P g → P g'
  cond : ∀ c g, P g → P (evalCond cfg c g).2
  micro : ∀ m rest heap g, P g → P (microStep cfg heap m rest g).2

variable {P : Globals → Prop}

theorem ObjectRule.touch (hP : ObjectRule cfg P) (h : P g) (ht : Touch cfg x g f g') : P g' := by
  cases ht with
  | same => exact h
  | claim =>
    refine hP.objects g _ ?_ h
    unfold claim
    split_ifs <;> rfl
  | release =>
    refine hP.objects g _ ?_ h
    unfold release
    split_ifs <;> rfl
  | cond => exact hP.cond _ g h
  | micro => exact hP.micro _ _ _ g h
  | _ => exact hP.objects g _ rfl h

theorem ObjectRule.stack (hP : ObjectRule cfg P) {l : List Frame} {sm : StackMove} (h : P g)
    (hs : stackStep cfg x o g l = (g', sm)) : P g' := by
  cases l with
  | nil =>
    obtain ⟨rfl, -⟩ := Prod.mk.inj hs
    exact h
  | cons f rest =>
    obtain ⟨rfl, -⟩ := Prod.mk.inj hs
    exact hP.touch h (frameStep_touch (Prod.eta (frameStep cfg x o g f)).symm)

theorem setSp_objects (g : Globals) (t : TaskId) (l : List Frame) :
    objects (setTask g t fun k => { k with sp := l }) = objects g := by
  have : (fun u => ((setTask g t fun k => { k with sp := l }).task u).notify) =
      fun u => (g.task u).notify := funext fun u => update_field Task.notify rfl
  simp only [objects, this]
  rfl

theorem bodyStep_objects (pc : RunPc) : objects (bodyStep cfg g pc).1 = objects g := by
  cases pc with
  | walk pass t => cases t <;> rfl
  | reap =>
    have : (fun t => ((reap g).task t).notify) = fun t => (g.task t).notify := by
      funext t
      simp only [reap]
      split_ifs <;> rfl
    simp only [bodyStep, objects, this]
    rfl
  | _ => rfl

theorem ObjectRule.context (hP : ObjectRule cfg P) {c : Context} {c' : Option Context} (h : P g)
    (hs : c.step cfg x o g = (g', c')) : P g' := by
  cases Context.step_cases hs with
  | stuck => exact h
  | switch _ hst => exact hP.objects _ _ (setSp_objects _ _ _) (hP.stack h hst)
  | retire _ hst => exact hP.objects _ _ (setSp_objects _ _ _) (hP.stack h hst)
  | body _ _ => exact hP.objects g _ (bodyStep_objects _) h
  | _ => exact hP.stack h (by assumption)

variable {s u : Machine} {e : Event}

/-- **The rule for a property of the objects.** -/
theorem Step.objects (hs : Step cfg s e u) (hP : ObjectRule cfg P) (h : P s.g) : P u.g := by
  have hadv : ∀ dt, P (advance dt s.g) := fun dt => hP.objects s.g _ rfl h
  cases hs.cases with
  | isr => exact h
  | dispatch => exact h
  | isrDone => exact hadv _
  | isrStep => exact hP.micro _ _ _ _ (hadv _)
  | pendsv _ _ hc => exact hP.context (hadv _) hc
  | thread _ _ hc => exact hP.context (hadv _) hc

/-! ## The rule for all frames -/

/-- All frames of a context. -/
structure Context.All (F : Frame → Prop) (c : Context) : Prop where
  frames : ∀ f ∈ c.frames, F f
  body : ∀ b, c.body = some b → ∀ f ∈ b.frames, F f

/-- All frames of the machine, those of tasks that are not running included. -/
structure AllFrames (F : Frame → Prop) (s : Machine) : Prop where
  thread : s.thread.All F
  pendsv : ∀ c, s.pendsv = some c → c.All F
  saved : ∀ t, ∀ f ∈ (s.g.task t).sp, F f

/-- A property of frames that calls begin with and that steps keep whose outcome meets `G`. -/
structure FrameRule (cfg : Config) (G : Globals → Prop) (F : Frame → Prop) : Prop where
  call : ∀ c : Call, F c.frame
  resume : ∀ r f, F f → F (resumeWith r f)
  save : ∀ g t l, G (setTask g t fun k => { k with sp := l }) → G g
  step : ∀ x o g f, G (frameStep cfg x o g f).1 → F f → ∀ f' ∈ (frameStep cfg x o g f).2.frames, F f'

variable {F : Frame → Prop} {G : Globals → Prop}

theorem FrameRule.stack (hF : FrameRule cfg G F) {l : List Frame} {sm : StackMove} (hg : G g')
    (hl : ∀ f ∈ l, F f) (h : stackStep cfg x o g l = (g', sm)) : ∀ f ∈ sm.stay, F f :=
  stackStep_all h hF.call hF.resume (fun f he hf => hF.step x o g f (he ▸ hg) hf) hl

theorem saved_stack {l : List Frame} {sm : StackMove} (hsp : ∀ t, ∀ f ∈ (g.task t).sp, F f)
    (h : stackStep cfg x o g l = (g', sm)) : ∀ t, ∀ f ∈ (g'.task t).sp, F f := by
  intro t f' hf'
  cases l with
  | nil =>
    obtain ⟨rfl, -⟩ := Prod.mk.inj h
    exact hsp t f' hf'
  | cons f rest =>
    obtain ⟨rfl, -⟩ := Prod.mk.inj h
    rcases frameStep_sp (Prod.eta (frameStep cfg x o g f)).symm t with ht | ht
    · exact hsp t f' (ht ▸ hf')
    · rw [ht] at hf'
      exact absurd hf' List.not_mem_nil

theorem saved_save {t : TaskId} {l : List Frame} (hsp : ∀ t, ∀ f ∈ (g.task t).sp, F f)
    (hl : ∀ f ∈ l, F f) :
    ∀ u, ∀ f ∈ ((setTask g t fun k => { k with sp := l }).task u).sp, F f := by
  intro u f hf
  by_cases hu : u = t
  · rw [hu, setTask_self] at hf
    exact hl f hf
  · rw [setTask_other hu] at hf
    exact hsp u f hf

theorem bodyStep_sp (pc : RunPc) (t : TaskId) :
    ((bodyStep cfg g pc).1.task t).sp = (g.task t).sp := by
  cases pc with
  | walk pass t => cases t <;> rfl
  | reap => exact reap_sp g t
  | _ => rfl

theorem bodyStep_frames {pc : RunPc} {b : Body} (hsp : ∀ t, ∀ f ∈ (g.task t).sp, F f)
    (hb : (bodyStep cfg g pc).2 = some b) : ∀ f ∈ b.frames, F f := by
  cases pc with
  | resume pass t =>
    obtain rfl := Option.some.inj hb
    exact hsp t
  | finish => exact absurd hb (Option.some_ne_none b).symm
  | walk pass t =>
    cases t <;> (obtain rfl := Option.some.inj hb; exact fun f hf => absurd hf List.not_mem_nil)
  | _ =>
    obtain rfl := Option.some.inj hb
    exact fun f hf => absurd hf List.not_mem_nil

/-- One step of a context, for a property of all frames. -/
theorem FrameRule.context (hF : FrameRule cfg G F) {c : Context} {c' : Option Context} (h : c.All F)
    (hsp : ∀ t, ∀ f ∈ (g.task t).sp, F f) (hs : c.step cfg x o g = (g', c')) (hg : G g') :
    (c'.getD idle).All F ∧ ∀ t, ∀ f ∈ (g'.task t).sp, F f := by
  cases Context.step_cases hs with
  | frames hb hst => exact ⟨⟨hF.stack hg h.frames hst, nofun⟩, saved_stack hsp hst⟩
  | enter hb hst =>
    refine ⟨⟨hF.stack hg h.frames hst, fun b hb f hf => ?_⟩, saved_stack hsp hst⟩
    obtain rfl := Option.some.inj hb
    exact absurd hf List.not_mem_nil
  | finished hb hst =>
    exact ⟨⟨fun f hf => absurd hf List.not_mem_nil, nofun⟩, saved_stack hsp hst⟩
  | stuck => exact ⟨h, hsp⟩
  | turn hb hst =>
    refine ⟨⟨h.frames, fun b hb' => ?_⟩, saved_stack hsp hst⟩
    obtain rfl := Option.some.inj hb'
    exact hF.stack hg (h.body _ hb) hst
  | returned hb hst =>
    refine ⟨⟨h.frames, fun b hb' => ?_⟩, saved_stack hsp hst⟩
    obtain rfl := Option.some.inj hb'
    intro f hf
    obtain rfl := List.mem_singleton.mp hf
    exact hF.call (.op (.taskDelete none))
  | switch hb hst =>
    refine ⟨⟨h.frames, fun b hb' f hf => ?_⟩,
      saved_save (saved_stack hsp hst) (hF.stack (hF.save _ _ _ hg) (h.body _ hb) hst)⟩
    obtain rfl := Option.some.inj hb'
    exact absurd hf List.not_mem_nil
  | retire hb hst =>
    refine ⟨⟨h.frames, fun b hb' f hf => ?_⟩,
      saved_save (saved_stack hsp hst) fun f hf => absurd hf List.not_mem_nil⟩
    obtain rfl := Option.some.inj hb'
    exact absurd hf List.not_mem_nil
  | body hb _ =>
    refine ⟨⟨h.frames, fun b hb' => bodyStep_frames hsp hb'⟩, fun t f hf => ?_⟩
    rw [bodyStep_sp] at hf
    exact hsp t f hf

/-- **The rule for a property of all frames.** -/
theorem Step.frames (hs : Step cfg s e u) (hF : FrameRule cfg G F) (hg : G u.g) (h : AllFrames F s) :
    AllFrames F u := by
  cases hs.cases with
  | isr => exact ⟨h.thread, h.pendsv, h.saved⟩
  | isrDone => exact ⟨h.thread, h.pendsv, h.saved⟩
  | @isrStep o m todo =>
    refine ⟨h.thread, h.pendsv, fun t f hf => ?_⟩
    have hsp : ((microStep cfg o.heap m todo (advance o.dt s.g)).2.task t).sp = (s.g.task t).sp ∨
        ((microStep cfg o.heap m todo (advance o.dt s.g)).2.task t).sp = [] :=
      microStep_sp m todo o.heap t
    rcases hsp with ht | ht
    · exact h.saved t f (ht ▸ hf)
    · rw [ht] at hf
      exact absurd hf List.not_mem_nil
  | dispatch =>
    refine ⟨h.thread, fun c hc => ?_, h.saved⟩
    obtain rfl := Option.some.inj hc
    exact ⟨fun f hf => absurd hf List.not_mem_nil, nofun⟩
  | @pendsv o c g' c' _ hp hc =>
    obtain ⟨hall, hsp⟩ := hF.context (h.pendsv c hp) (g := advance o.dt s.g) h.saved hc hg
    refine ⟨h.thread, fun d hd => ?_, hsp⟩
    obtain rfl : c' = some d := hd
    exact hall
  | thread _ hp hc =>
    obtain ⟨hall, hsp⟩ := hF.context h.thread (g := advance _ s.g) h.saved hc hg
    refine ⟨hall, fun c hc => ?_, hsp⟩
    exact absurd (hp.symm.trans hc) (Option.some_ne_none c).symm

/-- At boot no code is in a call. -/
theorem AllFrames.boot (g : Globals) (hsp : ∀ t, (g.task t).sp = []) : AllFrames F (boot g) where
  thread := ⟨fun _ hf => absurd hf List.not_mem_nil, nofun⟩
  pendsv := nofun
  saved := by
    intro t f hf
    rw [show (Sched.boot g).g.task t = g.task t from rfl, hsp t] at hf
    exact absurd hf List.not_mem_nil

/-! ## Waits -/

/-- How a wait goes by what its evaluations gave, last first: none gave true before it is
satisfied, the last did where it is, and it does not give up without one. -/
def WaitOk : Frame → Prop
  | .wait _ evals w =>
    match w.pc with
    | .cap => evals = []
    | .start => evals = []
    | .counted => evals = []
    | .cond => ∀ b ∈ evals, b = false
    | .leave r => ∃ before, evals = r :: before ∧ ∀ b ∈ before, b = false
    | .wake r => ∃ before, evals = r :: before ∧ ∀ b ∈ before, b = false
    | .done => ∃ before, evals = true :: before ∧ ∀ b ∈ before, b = false
    | _ => ∃ before, evals = false :: before ∧ ∀ b ∈ before, b = false
  | _ => True

def Frame.isWait : Frame → Bool
  | .wait _ _ _ => true
  | _ => false

def Frame.isOp : Frame → Bool
  | .op _ => true
  | _ => false

/-- The waits and operations that a step puts on a stack are new, or go on from the frame that
steps. -/
theorem frameStep_new {P : Frame → Prop}
    (hother : ∀ f' : Frame, f'.isWait = false → f'.isOp = false → P f')
    (hnew : ∀ c timeoutMs, P (waitOn c timeoutMs)) (hop : ∀ p : Op, P (.op p.micros))
    (hwait : ∀ c evals w, f = .wait c evals w → ∀ f' ∈ (waitFrame cfg g c evals w).2.frames, P f')
    (hmicro : ∀ m rest heap, f = .op (m :: rest) → P (.op (microStep cfg heap m rest g).1)) :
    ∀ f' ∈ (frameStep cfg x o g f).2.frames, P f' := by
  have hcall : ∀ c : Call, P c.frame := by
    intro c
    cases c with
    | semWait => exact hnew _ _
    | sembWait => exact hnew _ _
    | queuePop => exact hnew _ _
    | queuePush => exact hnew _ _
    | join => exact hnew _ _
    | op p => exact hop p
    | _ => exact hother _ rfl rfl
  have hone : ∀ f' : Frame, f'.isWait = false → f'.isOp = false → ∀ f'' ∈ [f'], P f'' :=
    fun f' hw ho => List.forall_mem_singleton.mpr (hother f' hw ho)
  have hnone : ∀ f'' ∈ ([] : List Frame), P f'' := fun f'' hf'' => absurd hf'' List.not_mem_nil
  cases f with
  | wait c evals w => exact hwait c evals w rfl
  | poll pc =>
    cases pc with
    | irqs => exact codeStep_frames hcall (hother _ rfl rfl) (hone _ rfl rfl)
    | timers => exact codeStep_frames hcall (hother _ rfl rfl) (hone _ rfl rfl)
    | run =>
      exact List.forall_mem_cons.mpr ⟨hother _ rfl rfl, hone _ rfl rfl⟩
    | initted =>
      simp only [frameStep, pollStep]
      split_ifs
      · exact hone _ rfl rfl
      · exact hnone
    | current =>
      simp only [frameStep, pollStep]
      split_ifs
      · exact hone _ rfl rfl
      · exact hnone
    | schedPending =>
      simp only [frameStep, pollStep]
      split_ifs <;> exact hone _ rfl rfl
    | refused => exact hnone
    | rearm => exact hnone
    | _ => exact hone _ rfl rfl
  | yield pc =>
    cases pc with
    | run => exact List.forall_mem_cons.mpr ⟨hother _ rfl rfl, hone _ rfl rfl⟩
    | switch t => exact hnone
    | hook =>
      simp only [frameStep, yieldStep]
      split_ifs
      · exact hnone
      · exact codeStep_frames hcall (hother _ rfl rfl) hnone
    | _ => exact hone _ rfl rfl
  | park timed wakeAt pc =>
    cases pc with
    | current =>
      simp only [frameStep, parkStep]
      split <;> exact hone _ rfl rfl
    | deadline t => exact hone _ rfl rfl
    | switch t => exact hnone
  | run pc =>
    cases pc with
    | check =>
      simp only [frameStep, runEntryStep]
      split_ifs
      · exact hnone
      · exact hone _ rfl rfl
    | set => exact hnone
  | notifyWait timeoutMs =>
    simp only [frameStep, notifyWaitStep]
    split
    · exact hnone
    · exact List.forall_mem_singleton.mpr (hnew _ _)
  | mutexGet m timeoutMs pc =>
    cases pc with
    | enter =>
      simp only [frameStep, mutexGetStep]
      split_ifs
      · exact List.forall_mem_cons.mpr ⟨hnew _ _, hone _ rfl rfl⟩
      · exact List.forall_mem_singleton.mpr (hnew _ _)
    | first => exact hone _ rfl rfl
    | report => exact List.forall_mem_singleton.mpr (hnew _ _)
    | done => exact hnone
  | op todo =>
    simp only [frameStep]
    unfold opStep
    split
    · exact hnone
    · exact hnone
    · exact List.forall_mem_singleton.mpr (hmicro _ _ _ rfl)
  | region pc =>
    cases pc with
    | inside => exact codeStep_frames hcall (hother _ rfl rfl) (hone _ rfl rfl)
    | claim => exact hone _ rfl rfl
    | _ => exact hnone

/-- The wait frames that a step puts on a stack are new, or go on from the frame that steps. -/
theorem frameStep_wait {P : Frame → Prop} (hother : ∀ f' : Frame, f'.isWait = false → P f')
    (hnew : ∀ c timeoutMs, P (waitOn c timeoutMs))
    (hwait : ∀ c evals w, f = .wait c evals w → ∀ f' ∈ (waitFrame cfg g c evals w).2.frames, P f') :
    ∀ f' ∈ (frameStep cfg x o g f).2.frames, P f' :=
  frameStep_new (fun f' hw _ => hother f' hw) hnew (fun _ => hother _ rfl) hwait
    fun _ _ _ _ => hother _ rfl

/-- The evaluation of the condition: where it gives, the wait is satisfied; where not, it goes on
from the first place and gives up at the second. -/
theorem waitFrame_eval {c : Cond} {evals : List Bool} {w : Wait} (hpc : w.pc = .cond ∨ w.pc = .recheck) :
    (waitFrame cfg g c evals w).1 = (evalCond cfg c g).2 ∧
      ∀ f' ∈ (waitFrame cfg g c evals w).2.frames,
        f' = .wait c ((evalCond cfg c g).1 :: evals) (waitCond (evalCond cfg c g).1 w) ∨
          f' = .op [.wake] := by
  have hst : waitStep cfg (ticks g) g.teardown (g.cur = none) w = (w, .eval) := by
    rcases hpc with hpc | hpc <;> simp only [waitStep, hpc]
  simp only [waitFrame, hst]
  refine ⟨trivial, ?_⟩
  split_ifs
  · exact List.forall_mem_cons.mpr ⟨Or.inr rfl, List.forall_mem_singleton.mpr (Or.inl rfl)⟩
  · exact List.forall_mem_singleton.mpr (Or.inl rfl)

/-- **Every step of a wait keeps its account of the evaluations.** -/
theorem waitFrame_ok {c : Cond} {evals : List Bool} {w : Wait} (h : WaitOk (.wait c evals w)) :
    ∀ f' ∈ (waitFrame cfg g c evals w).2.frames, WaitOk f' := by
  obtain ⟨timeoutMs, forever, start, counted, pc, asked⟩ := w
  cases pc with
  | cond =>
    intro f' hf'
    rcases (waitFrame_eval (Or.inl rfl)).2 f' hf' with rfl | rfl
    · cases hr : (evalCond cfg c g).1 <;> exact ⟨evals, rfl, h⟩
    · trivial
  | recheck =>
    have hall : ∀ b ∈ evals, b = false := by
      obtain ⟨before, rfl, hb⟩ := h
      exact List.forall_mem_cons.mpr ⟨rfl, hb⟩
    intro f' hf'
    rcases (waitFrame_eval (Or.inr rfl)).2 f' hf' with rfl | rfl
    · exact ⟨evals, rfl, hall⟩
    · trivial
  | counted =>
    obtain rfl : evals = [] := h
    simp only [waitFrame, waitStep]
    cases decide (g.cur = none) <;>
      exact List.forall_mem_singleton.mpr fun b hb => absurd hb List.not_mem_nil
  | zero =>
    by_cases ht : timeoutMs = 0
    · simp only [waitFrame, waitStep, if_pos ht]
      exact List.forall_mem_singleton.mpr h
    · simp only [waitFrame, waitStep, if_neg ht]
      cases forever <;> exact List.forall_mem_singleton.mpr h
  | teardown =>
    simp only [waitFrame, waitStep]
    cases g.teardown with
    | true => exact List.forall_mem_singleton.mpr h
    | false =>
      obtain ⟨before, rfl, hb⟩ := h
      exact List.forall_mem_cons.mpr ⟨trivial, List.forall_mem_singleton.mpr
        (List.forall_mem_cons.mpr ⟨rfl, hb⟩)⟩
  | elapsed =>
    by_cases ht : timeoutMs ≤ ticks g - start
    · simp only [waitFrame, waitStep, if_pos ht]
      exact List.forall_mem_singleton.mpr h
    · simp only [waitFrame, waitStep, if_neg ht]
      obtain ⟨before, rfl, hb⟩ := h
      exact List.forall_mem_cons.mpr ⟨trivial, List.forall_mem_singleton.mpr
        (List.forall_mem_cons.mpr ⟨rfl, hb⟩)⟩
  | leave r =>
    simp only [waitFrame, waitStep]
    cases counted <;> exact List.forall_mem_singleton.mpr h
  | wake r =>
    simp only [waitFrame, waitStep]
    cases r with
    | true => exact List.forall_mem_singleton.mpr h
    | false => exact fun f' hf' => absurd hf' List.not_mem_nil
  | done => exact fun f' hf' => absurd hf' List.not_mem_nil
  | _ => exact List.forall_mem_singleton.mpr h

theorem waitOk_rule : FrameRule cfg (fun _ => True) WaitOk where
  call c := by cases c <;> trivial
  resume r f h := by
    unfold resumeWith
    split
    · trivial
    · exact h
  save _ _ _ h := h
  step x o g f _ h := by
    refine frameStep_wait (fun f' hf' => ?_) (fun c timeoutMs => rfl) fun c evals w hf => ?_
    · cases f' with
      | wait c evals w => exact Bool.noConfusion hf'
      | _ => trivial
    · subst hf
      exact waitFrame_ok h

theorem AllFrames.imp {G : Frame → Prop} (h : AllFrames F s) (hfg : ∀ f, F f → G f) :
    AllFrames G s where
  thread := ⟨fun f hf => hfg f (h.thread.frames f hf),
    fun b hb f hf => hfg f (h.thread.body b hb f hf)⟩
  pendsv c hc := ⟨fun f hf => hfg f ((h.pendsv c hc).frames f hf),
    fun b hb f hf => hfg f ((h.pendsv c hc).body b hb f hf)⟩
  saved t f hf := hfg f (h.saved t f hf)

theorem AllFrames.and {G : Frame → Prop} (h : AllFrames F s) (h' : AllFrames G s) :
    AllFrames (fun f => F f ∧ G f) s where
  thread := ⟨fun f hf => ⟨h.thread.frames f hf, h'.thread.frames f hf⟩,
    fun b hb f hf => ⟨h.thread.body b hb f hf, h'.thread.body b hb f hf⟩⟩
  pendsv c hc := ⟨fun f hf => ⟨(h.pendsv c hc).frames f hf, (h'.pendsv c hc).frames f hf⟩,
    fun b hb f hf => ⟨(h.pendsv c hc).body b hb f hf, (h'.pendsv c hc).body b hb f hf⟩⟩
  saved t f hf := ⟨h.saved t f hf, h'.saved t f hf⟩

/-- **A wait returns what its last evaluation gave, and no evaluation before gave true.** -/
def ReturnsLast (cfg : Config) (f : Frame) : Prop :=
  ∀ g c evals w r, f = .wait c evals w → (waitFrame cfg g c evals w).2 = .ret r →
    ∃ before, evals = r :: before ∧ ∀ b ∈ before, b = false

/-- A wait returns true when it is done, and false from the wake it leaves out. -/
theorem waitFrame_ret {c : Cond} {evals : List Bool} {w : Wait} {r : Bool}
    (h : (waitFrame cfg g c evals w).2 = .ret r) :
    r = true ∧ w.pc = .done ∨ r = false ∧ w.pc = .wake false := by
  obtain ⟨timeoutMs, forever, start, counted, pc, asked⟩ := w
  cases pc with
  | wake satisfied =>
    cases satisfied with
    | true => exact Move.noConfusion h
    | false => exact Or.inr ⟨(Move.ret.inj h).symm, rfl⟩
  | done => exact Or.inl ⟨(Move.ret.inj h).symm, rfl⟩
  | counted =>
    simp only [waitFrame, waitStep] at h
    split_ifs at h
  | cond =>
    simp only [waitFrame, waitStep] at h
    split_ifs at h
  | recheck =>
    simp only [waitFrame, waitStep] at h
    split_ifs at h
  | zero =>
    by_cases ht : timeoutMs = 0
    · simp only [waitFrame, waitStep, if_pos ht] at h
      exact Move.noConfusion h
    · simp only [waitFrame, waitStep, if_neg ht] at h
      exact Move.noConfusion h
  | teardown =>
    cases ht : g.teardown <;> simp [waitFrame, waitStep, ht] at h
  | elapsed =>
    by_cases ht : timeoutMs ≤ ticks g - start
    · simp only [waitFrame, waitStep, if_pos ht] at h
      exact Move.noConfusion h
    · simp only [waitFrame, waitStep, if_neg ht] at h
      exact Move.noConfusion h
  | leave satisfied =>
    cases counted <;> exact Move.noConfusion h
  | _ => exact Move.noConfusion h

theorem WaitOk.returnsLast (h : WaitOk f) : ReturnsLast cfg f := by
  rintro g c evals w r rfl hr
  simp only [WaitOk] at h
  rcases waitFrame_ret hr with ⟨rfl, hpc⟩ | ⟨rfl, hpc⟩
  · rw [hpc] at h
    exact h
  · rw [hpc] at h
    exact h

variable {now : Nat} {mutex : Nat → Mutex} {sem : Nat → Sem} {semb : Nat → Bool}
  {queue : Nat → Queue} {tr : List Event}

theorem waits_run (h : Run (Step cfg) (Sched.boot (bootGlobals now mutex sem semb queue)) tr s) :
    AllFrames (ReturnsLast cfg) s := by
  suffices hw : AllFrames WaitOk s from hw.imp fun _ => WaitOk.returnsLast
  exact h.inv (AllFrames.boot _ fun _ => rfl) fun _ _ _ hw hs => hs.frames waitOk_rule trivial hw

end MmHalow.Sched
