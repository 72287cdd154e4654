import MmHalow.Sched.Objects

/-!
# The waits outside the tasks (`mm_halow_sched_in_wait`)

A wait that finds no task current adds itself to `mm_halow_wait_depth` and takes itself off when it
is over. What a wait found is kept in its own variable (`counted`), since the count has to come down
on the way out of the same wait whatever is current by then.

* `frameStep_depth`: a step of a frame changes the count as it changes the number of waits.
* `frameStep_found`: a wait that is called finds what is current, and keeps to it.
* `Finds`: so the waits of a task are not counted, wherever its stack is, and those of a context are,
  unless it is PendSV and has cut into a turn.
* `Depth.step`: every step of the machine keeps the account.
* `in_wait_iff`: **`mm_halow_wait_depth` is the number of waits under way outside turns**, modulo its
  range, in every reachable state.
-/

namespace MmHalow.Sched

open MmHalow.Lib MmHalow.Lib.Clock MmHalow.Osal

/-- `mm_halow_sched_in_wait`. -/
def inWait (g : Globals) : Bool := 0 < g.waitDepth

/-! ## Counted waits -/

/-- The wait has looked for the current task and is not off the count yet. -/
def WaitPc.underWay : WaitPc → Bool
  | .cond => true
  | .zero => true
  | .teardown => true
  | .elapsed => true
  | .recheck => true
  | .leave _ => true
  | _ => false

/-- A wait under way that found no task current. -/
def Frame.outside : Frame → Nat
  | .wait _ _ w => if w.pc.underWay && w.counted then 1 else 0
  | _ => 0

/-- The waits under way on a stack that found no task current. -/
def stackOutside (l : List Frame) : Nat := (l.map Frame.outside).sum

/-- Those of both contexts. -/
def machineOutside (s : Machine) : Nat :=
  stackOutside s.thread.frames + ((s.pendsv.map fun c => stackOutside c.frames).getD 0)

/-- A wait under way. -/
def Frame.waits : Frame → Nat
  | .wait _ _ w => if w.pc.underWay then 1 else 0
  | _ => 0

/-- The waits under way on a stack. -/
def stackWaits (l : List Frame) : Nat := (l.map Frame.waits).sum

/-- **The waits under way outside turns**: those of thread context itself, and those of PendSV itself
unless it has cut into the turn of a task. -/
def waitsOutside (s : Machine) : Nat :=
  stackWaits s.thread.frames +
    match bodyCur s.thread.body with
    | none => (s.pendsv.map fun c => stackWaits c.frames).getD 0
    | some _ => 0

variable {cfg : Config} {x : Ctx} {o : Choice} {g g' : Globals} {f : Frame} {mv : Move}

theorem stackOutside_cons (f : Frame) (l : List Frame) :
    stackOutside (f :: l) = f.outside + stackOutside l := List.sum_cons

theorem Call.outside (c : Call) : c.frame.outside = 0 := by
  cases c <;> rfl

theorem outside_resume {r : Bool} : (resumeWith r f).outside = f.outside := by
  unfold resumeWith
  split <;> rfl

theorem stackOutside_return {r : Bool} {l : List Frame} :
    stackOutside (returnTo r l) = stackOutside l := by
  cases l with
  | nil => rfl
  | cons f rest => simp only [returnTo, stackOutside, List.map_cons, outside_resume]

/-! ## One step of a frame -/

/-- The count moves with the number of waits. -/
def Moves (held held' : Nat) (g g' : Globals) : Prop :=
  g'.waitDepth + UInt16.ofNat held = g.waitDepth + UInt16.ofNat held'

theorem Moves.of_same {held held' : Nat} (hd : g'.waitDepth = g.waitDepth) (hh : held' = held) :
    Moves held held' g g' := by rw [Moves, hd, hh]

theorem Moves.add {held held' : Nat} (h : Moves held held' g g') (k : Nat) :
    Moves (held + k) (held' + k) g g' := by
  unfold Moves at h ⊢
  rw [UInt16.ofNat_add, UInt16.ofNat_add, ← UInt16.add_assoc, h, UInt16.add_assoc]

theorem evalCond_depth (c : Cond) : (evalCond cfg c g).2.waitDepth = g.waitDepth := by
  cases c with
  | notified t => simp only [evalCond]; split_ifs <;> rfl
  | semTaken s => simp only [evalCond]; split_ifs <;> rfl
  | queuePopped q => simp only [evalCond]; split <;> rfl
  | queuePushed q item => simp only [evalCond]; split_ifs <;> rfl
  | _ => rfl

theorem microStep_depth (m : Micro) (rest : List Micro) (heap : Bool) :
    (microStep cfg heap m rest g).2.waitDepth = g.waitDepth := by
  cases m with
  | semGive s => simp only [microStep]; split_ifs <;> rfl
  | queuePush q item => simp only [microStep]; split_ifs <;> rfl
  | queuePop q => simp only [microStep]; split <;> rfl
  | deleteSelf => simp only [microStep]; split <;> rfl
  | create =>
    simp only [microStep]
    split
    · rfl
    · next h =>
      obtain ⟨t, -, rfl⟩ := taskCreate_cases h
      rfl
  | pending => simp only [microStep]; split_ifs <;> rfl
  | _ => rfl

/-- A step of a wait. -/
theorem waitFrame_depth (c : Cond) (evals : List Bool) (w : Wait) :
    Moves (Frame.outside (.wait c evals w)) (stackOutside (waitFrame cfg g c evals w).2.frames) g
      (waitFrame cfg g c evals w).1 := by
  obtain ⟨timeoutMs, forever, start, counted, pc, asked⟩ := w
  cases pc with
  | counted =>
    simp only [waitFrame, waitStep]
    by_cases hcur : g.cur = none
    · -- the wait adds itself
      simp [hcur, Moves, Frame.outside, WaitPc.underWay, Move.frames, stackOutside]
    · simp [hcur, Moves, Frame.outside, WaitPc.underWay, Move.frames, stackOutside]
  | leave r =>
    simp only [waitFrame, waitStep]
    cases counted with
    | true =>
      -- it takes itself off
      simp [Moves, Frame.outside, WaitPc.underWay, Move.frames, stackOutside]
    | false => simp [Moves, Frame.outside, WaitPc.underWay, Move.frames, stackOutside]
  | cond =>
    simp only [waitFrame, waitStep]
    refine .of_same (evalCond_depth c) ?_
    cases (evalCond cfg c g).1 <;> cases c.wakes <;>
      simp [Frame.outside, WaitPc.underWay, waitCond, Move.frames, stackOutside]
  | recheck =>
    simp only [waitFrame, waitStep]
    refine .of_same (evalCond_depth c) ?_
    cases (evalCond cfg c g).1 <;> cases c.wakes <;>
      simp [Frame.outside, WaitPc.underWay, waitCond, Move.frames, stackOutside]
  | zero =>
    simp only [waitFrame, waitStep]
    split_ifs <;> exact .of_same rfl (by simp [Frame.outside, WaitPc.underWay, Move.frames, stackOutside])
  | teardown =>
    simp only [waitFrame, waitStep]
    split_ifs <;> exact .of_same rfl (by simp [Frame.outside, WaitPc.underWay, Move.frames, stackOutside])
  | elapsed =>
    simp only [waitFrame, waitStep]
    split_ifs <;> exact .of_same rfl (by simp [Frame.outside, WaitPc.underWay, Move.frames, stackOutside])
  | wake r =>
    simp only [waitFrame, waitStep]
    split_ifs <;> exact .of_same rfl (by simp [Frame.outside, WaitPc.underWay, Move.frames, stackOutside])
  | _ => exact .of_same rfl rfl

/-- Code keeps the waits of the frame it stands in. -/
theorem codeStep_outside {here : Frame} {fin : Move} (hfin : stackOutside fin.frames = here.outside) :
    stackOutside (codeStep o here fin).frames = here.outside := by
  unfold codeStep
  split
  · next c _ => simp [Move.frames, stackOutside, Call.outside c]
  · exact hfin

/-- **A step of a frame changes the count as it changes the number of waits.** -/
theorem frameStep_depth (h : frameStep cfg x o g f = (g', mv)) :
    Moves f.outside (stackOutside mv.frames) g g' := by
  obtain ⟨rfl, rfl⟩ := Prod.mk.inj h
  cases f with
  | wait c evals w => exact waitFrame_depth c evals w
  | poll pc =>
    cases pc with
    | claim => exact .of_same (by simp only [pollStep, claim]; split_ifs <;> rfl) rfl
    | quietRelease => exact .of_same (by simp only [pollStep, release]; split_ifs <;> rfl) rfl
    | release => exact .of_same (by simp only [pollStep, release]; split_ifs <;> rfl) rfl
    | irqs => exact .of_same rfl (codeStep_outside rfl)
    | timers => exact .of_same rfl (codeStep_outside rfl)
    | initted => exact .of_same rfl (by simp only [pollStep]; split_ifs <;> rfl)
    | current => exact .of_same rfl (by simp only [pollStep]; split_ifs <;> rfl)
    | schedPending =>
      simp only [pollStep]
      split_ifs <;> exact .of_same rfl rfl
    | _ => exact .of_same rfl rfl
  | yield pc =>
    cases pc with
    | claim => exact .of_same (by simp only [yieldStep, claim]; split_ifs <;> rfl) rfl
    | release => exact .of_same (by simp only [yieldStep, release]; split_ifs <;> rfl) rfl
    | hook =>
      refine .of_same rfl ?_
      simp only [yieldStep]
      split_ifs
      · rfl
      · exact codeStep_outside rfl
    | _ => exact .of_same rfl rfl
  | park timed wakeAt pc =>
    cases pc with
    | current => exact .of_same rfl (by simp only [parkStep]; split <;> rfl)
    | deadline t => exact .of_same (by simp only [parkStep]; split_ifs <;> rfl) rfl
    | switch t => exact .of_same rfl rfl
  | run pc =>
    cases pc with
    | check => exact .of_same rfl (by simp only [runEntryStep]; split_ifs <;> rfl)
    | set => exact .of_same rfl rfl
  | notifyWait timeoutMs => exact .of_same rfl (by simp only [notifyWaitStep]; split <;> rfl)
  | mutexGet m timeoutMs pc =>
    refine .of_same rfl ?_
    cases pc with
    | enter => simp only [mutexGetStep]; split_ifs <;> rfl
    | _ => rfl
  | op todo =>
    show Moves 0 (stackOutside (opStep cfg o g todo).2.frames) g (opStep cfg o g todo).1
    unfold opStep
    split
    · exact .of_same rfl rfl
    · exact .of_same rfl rfl
    · exact .of_same (microStep_depth _ _ _) rfl
  | region pc =>
    cases pc with
    | claim => exact .of_same (by simp only [regionStep, claim]; split_ifs <;> rfl) rfl
    | release => exact .of_same (by simp only [regionStep, release]; split_ifs <;> rfl) rfl
    | inside => exact .of_same rfl (codeStep_outside rfl)
    | refused => exact .of_same rfl rfl

/-! ## What waits find -/

/-- A wait under way found no task current where `b` says so, and one where not. -/
def Frame.Found (b : Bool) : Frame → Prop
  | .wait _ _ w => w.pc.underWay = true → w.counted = b
  | _ => True

/-- All waits under way on the stack found the same. -/
def Found (b : Bool) (l : List Frame) : Prop := ∀ f ∈ l, f.Found b

variable {b : Bool}

theorem found_nil : Found b [] := fun _ hf => absurd hf List.not_mem_nil

theorem Frame.Found.quiet (h : f.Found false) : f.outside = 0 := by
  cases f with
  | wait c evals w =>
    cases hpc : w.pc.underWay with
    | true => simp [Frame.outside, show w.counted = false from h hpc]
    | false => simp [Frame.outside, hpc]
  | _ => rfl

theorem Frame.Found.counted (h : f.Found true) : f.outside = f.waits := by
  cases f with
  | wait c evals w =>
    cases hpc : w.pc.underWay with
    | true => simp [Frame.outside, Frame.waits, hpc, show w.counted = true from h hpc]
    | false => simp [Frame.outside, Frame.waits, hpc]
  | _ => rfl

/-- The waits of a task are not counted. -/
theorem Found.quiet {l : List Frame} (h : Found false l) : stackOutside l = 0 := by
  induction l with
  | nil => rfl
  | cons f l ih =>
    obtain ⟨hf, hl⟩ := List.forall_mem_cons.mp h
    rw [stackOutside_cons, hf.quiet, ih hl]

/-- Those outside turns are. -/
theorem Found.counted {l : List Frame} (h : Found true l) : stackOutside l = stackWaits l := by
  induction l with
  | nil => rfl
  | cons f l ih =>
    obtain ⟨hf, hl⟩ := List.forall_mem_cons.mp h
    rw [stackOutside_cons, hf.counted, ih hl, stackWaits, stackWaits, List.map_cons, List.sum_cons]

theorem Call.found (c : Call) : c.frame.Found b := by
  cases c with
  | semWait => exact Bool.noConfusion
  | sembWait => exact Bool.noConfusion
  | queuePop => exact Bool.noConfusion
  | queuePush => exact Bool.noConfusion
  | join => exact Bool.noConfusion
  | _ => trivial

theorem Frame.Found.resume {r : Bool} (h : f.Found b) : (resumeWith r f).Found b := by
  unfold resumeWith
  split
  · trivial
  · exact h

/-- A wait looks for the current task once. -/
theorem waitFrame_found {c : Cond} {evals : List Bool} {w : Wait} (hcur : decide (g.cur = none) = b)
    (hf : (Frame.wait c evals w).Found b) : Found b (waitFrame cfg g c evals w).2.frames := by
  obtain ⟨timeoutMs, forever, start, counted, pc, asked⟩ := w
  by_cases hpc : pc.underWay = true
  · obtain rfl : counted = b := hf hpc
    cases pc with
    | cap => exact Bool.noConfusion hpc
    | start => exact Bool.noConfusion hpc
    | counted => exact Bool.noConfusion hpc
    | wake r => exact Bool.noConfusion hpc
    | done => exact Bool.noConfusion hpc
    | leave r => cases counted <;> simp [waitFrame, waitStep, Found, Move.frames, Frame.Found]
    | zero =>
      simp only [waitFrame, waitStep]
      split_ifs <;> simp [Found, Move.frames, Frame.Found]
    | teardown =>
      simp only [waitFrame, waitStep]
      split_ifs <;> simp [Found, Move.frames, Frame.Found]
    | elapsed =>
      simp only [waitFrame, waitStep]
      split_ifs <;> simp [Found, Move.frames, Frame.Found]
    | cond =>
      simp only [waitFrame, waitStep]
      split_ifs <;> simp [Found, Move.frames, Frame.Found, waitCond]
    | recheck =>
      simp only [waitFrame, waitStep]
      split_ifs <;> simp [Found, Move.frames, Frame.Found, waitCond]
  · cases pc with
    | cap => simp [waitFrame, waitStep, Found, Move.frames, Frame.Found, WaitPc.underWay]
    | start => simp [waitFrame, waitStep, Found, Move.frames, Frame.Found, WaitPc.underWay]
    | counted => cases b <;> simp [waitFrame, waitStep, hcur, Found, Move.frames, Frame.Found]
    | wake r =>
      simp only [waitFrame, waitStep]
      split_ifs <;> simp [Found, Move.frames, Frame.Found, WaitPc.underWay]
    | done => simp [waitFrame, waitStep, Found, Move.frames]
    | _ => exact absurd rfl hpc

/-- **The waits that a step calls find what is current.** -/
theorem frameStep_found (hcur : decide (g.cur = none) = b) (hf : f.Found b) :
    Found b (frameStep cfg x o g f).2.frames := by
  refine frameStep_wait (fun f' hf' => ?_) (fun _ _ => Bool.noConfusion) fun c evals w hw => ?_
  · cases f' with
    | wait c evals w => exact Bool.noConfusion hf'
    | _ => trivial
  · subst hw
    exact waitFrame_found hcur hf

theorem stackStep_found {l : List Frame} {sm : StackMove} (hcur : decide (g.cur = none) = b)
    (hl : Found b l) (h : stackStep cfg x o g l = (g', sm)) : Found b sm.stay :=
  stackStep_all h Call.found (fun _ _ hf => hf.resume) (fun _ _ hf => frameStep_found hcur hf) hl

/-! ## One step of a stack and of a context -/

theorem stackStep_depth {l : List Frame} {sm : StackMove} (h : stackStep cfg x o g l = (g', sm))
    (hretire : ∀ t, sm ≠ .retire t) : Moves (stackOutside l) (stackOutside sm.stay) g g' := by
  cases l with
  | nil =>
    obtain ⟨rfl, rfl⟩ := Prod.mk.inj h
    refine .of_same rfl ?_
    cases o.call with
    | none => rfl
    | some c => exact Call.outside c
  | cons f rest =>
    obtain ⟨hg, rfl⟩ := Prod.mk.inj h
    have he := (frameStep_depth (Prod.eta (frameStep cfg x o g f)).symm).add (stackOutside rest)
    rw [hg, ← stackOutside_cons] at he
    cases hmv : (frameStep cfg x o g f).2 with
    | goto f' =>
      rw [hmv] at he
      exact he
    | call f' callee =>
      rw [hmv] at he
      simpa [Move.onto, StackMove.stay, Move.frames, stackOutside, Nat.add_assoc] using he
    | ret r =>
      rw [hmv] at he
      have hret : stackOutside (returnTo r rest) = stackOutside rest := stackOutside_return
      simpa [Move.onto, StackMove.stay, hret, Move.frames, show stackOutside [] = 0 from rfl] using he
    | switch t =>
      rw [hmv] at he
      simpa [Move.onto, StackMove.stay, Move.frames, stackOutside] using he
    | enter =>
      rw [hmv] at he
      simpa [Move.onto, StackMove.stay, Move.frames, stackOutside] using he
    | retire t => exact absurd (by rw [hmv]; rfl) (hretire t)

/-- A step of a task leaves the count alone. -/
theorem stackStep_quiet {l : List Frame} {sm : StackMove} (hcur : decide (g.cur = none) = false)
    (hl : Found false l) (h : stackStep cfg x o g l = (g', sm)) : g'.waitDepth = g.waitDepth := by
  cases l with
  | nil =>
    obtain ⟨rfl, -⟩ := Prod.mk.inj h
    rfl
  | cons f rest =>
    obtain ⟨rfl, -⟩ := Prod.mk.inj h
    have hf : f.Found false := hl f List.mem_cons_self
    have he := frameStep_depth (Prod.eta (frameStep cfg x o g f)).symm
    rw [Moves, hf.quiet, (frameStep_found hcur hf).quiet] at he
    exact (UInt16.add_left_inj _).mp he

/-- **What the waits found**, on the stack of a context, of the task it runs and of the tasks that
have no turn; `b` tells whether the context was entered outside a turn. -/
structure Finds (b : Bool) (g : Globals) (c : Context) : Prop where
  saved : ∀ t, Found false (g.task t).sp
  body : ∀ b', c.body = some b' → Found false b'.frames
  frames : Found b c.frames

variable {c : Context} {c' : Option Context} {other : Option Body}

theorem bodyStep_depth (pc : RunPc) : (bodyStep cfg g pc).1.waitDepth = g.waitDepth := by
  cases pc with
  | walk pass t => cases t <;> rfl
  | _ => rfl

/-- **What a step of a context does to the count.** -/
theorem Context.step_depth (h : c.step cfg x o g = (g', c')) (hctl : CtxOk g other c)
    (hout : c.body = none → decide (g.cur = none) = b) (hq : Finds b g c) :
    Moves (stackOutside c.frames) (stackOutside (c'.getD idle).frames) g g' ∧ Finds b g' (c'.getD idle) := by
  have hnone : ∀ b', (none : Option Body) = some b' → Found false b'.frames :=
    fun b' hb => absurd hb (Option.some_ne_none b').symm
  have hcur : ∀ {pass t fr}, c.body = some ⟨.inTurn pass t, fr⟩ → decide (g.cur = none) = false := by
    intro pass t fr hb
    rw [(hctl.turn hb).1]
    exact decide_eq_false (Option.some_ne_none t)
  cases Context.step_cases h with
  | frames hb hst =>
    exact ⟨stackStep_depth hst fun _ => StackMove.noConfusion, saved_stack hq.saved hst, hnone,
      stackStep_found (hout hb) hq.frames hst⟩
  | enter hb hst =>
    refine ⟨stackStep_depth hst fun _ => StackMove.noConfusion, saved_stack hq.saved hst,
      fun b' hb' => ?_, stackStep_found (hout hb) hq.frames hst⟩
    obtain rfl := Option.some.inj hb'
    exact found_nil
  | finished hb hst =>
    exact ⟨stackStep_depth hst fun _ => StackMove.noConfusion, saved_stack hq.saved hst, hnone, found_nil⟩
  | stuck => exact ⟨.of_same rfl rfl, hq⟩
  | turn hb hst =>
    refine ⟨.of_same (stackStep_quiet (hcur hb) (hq.body _ hb) hst) rfl, saved_stack hq.saved hst,
      fun b' hb' => ?_, hq.frames⟩
    obtain rfl := Option.some.inj hb'
    exact stackStep_found (hcur hb) (hq.body _ hb) hst
  | returned hb hst =>
    refine ⟨.of_same (stackStep_quiet (hcur hb) (hq.body _ hb) hst) rfl, saved_stack hq.saved hst,
      fun b' hb' => ?_, hq.frames⟩
    obtain rfl := Option.some.inj hb'
    exact List.forall_mem_singleton.mpr trivial
  | switch hb hst =>
    have hd := stackStep_quiet (hcur hb) (hq.body _ hb) hst
    refine ⟨.of_same hd rfl,
      saved_save (saved_stack hq.saved hst) (stackStep_found (hcur hb) (hq.body _ hb) hst),
      fun b' hb' => ?_, hq.frames⟩
    obtain rfl := Option.some.inj hb'
    exact found_nil
  | retire hb hst =>
    have hd := stackStep_quiet (hcur hb) (hq.body _ hb) hst
    refine ⟨.of_same hd rfl,
      saved_save (saved_stack hq.saved hst) found_nil, fun b' hb' => ?_, hq.frames⟩
    obtain rfl := Option.some.inj hb'
    exact found_nil
  | body hb hpc =>
    refine ⟨.of_same (bodyStep_depth _) rfl, fun t f hf => ?_,
      fun b' hb' => bodyStep_frames hq.saved hb', hq.frames⟩
    rw [bodyStep_sp] at hf
    exact hq.saved t f hf

/-! ## One step of the machine -/

/-- PendSV, where it is active, has not cut into a turn. -/
def outsideTurn (s : Machine) : Bool := (bodyCur s.thread.body).isNone

/-- **The account of the waits outside turns**, in every reachable state. -/
structure Depth (s : Machine) : Prop where
  thread : Finds true s.g s.thread
  pendsv : ∀ c, s.pendsv = some c → Finds (outsideTurn s) s.g c
  depth : s.g.waitDepth = UInt16.ofNat (machineOutside s)

variable {s u : Machine} {e : Event}

theorem Finds.saves (h : Finds b g c) (hsp : ∀ t, Found false (g'.task t).sp) : Finds b g' c :=
  ⟨hsp, h.body, h.frames⟩

/-- The count after a step that moves the waits of one context. -/
theorem Moves.account {held held' k : Nat} (h : Moves held held' g g')
    (hd : g.waitDepth = UInt16.ofNat (held + k)) : g'.waitDepth = UInt16.ofNat (held' + k) := by
  unfold Moves at h
  rw [hd, UInt16.ofNat_add, UInt16.add_assoc, UInt16.add_comm] at h
  rw [UInt16.ofNat_add, UInt16.add_comm]
  exact (UInt16.add_right_inj _).mp h

/-- **Every step of the machine keeps the account.** -/
theorem Depth.step (h : Depth s) (hctl : Control s) (hs : Step cfg s e u) : Depth u := by
  unfold Control at hctl
  have hadv (dt : Nat) : ∀ t, Found false ((advance dt s.g).task t).sp := h.thread.saved
  cases hs.cases with
  | isr => exact ⟨h.thread, h.pendsv, h.depth⟩
  | @isrDone o => exact ⟨h.thread.saves (hadv o.dt), fun c hc => (h.pendsv c hc).saves (hadv o.dt), h.depth⟩
  | @isrStep o m todo rest =>
    have hsaved : ∀ t, Found false ((microStep cfg o.heap m todo (advance o.dt s.g)).2.task t).sp := by
      intro t f hf
      rcases microStep_sp (g := advance o.dt s.g) m todo o.heap t with hsp | hsp
      · exact h.thread.saved t f (hsp ▸ hf)
      · rw [hsp] at hf
        exact absurd hf List.not_mem_nil
    exact ⟨h.thread.saves hsaved, fun c hc => (h.pendsv c hc).saves hsaved,
      (microStep_depth m todo o.heap).trans h.depth⟩
  | dispatch _ hp =>
    refine ⟨h.thread, fun c hc => ?_, ?_⟩
    · obtain rfl := Option.some.inj hc
      exact ⟨h.thread.saved, fun b hb => absurd hb (Option.some_ne_none b).symm, found_nil⟩
    · have hd := h.depth
      rw [machineOutside, hp] at hd
      exact hd
  | @pendsv o c g' c' _ hp hc =>
    rw [hp] at hctl
    have hout : c.body = none → decide ((advance o.dt s.g).cur = none) = outsideTurn s := by
      intro hb
      show decide (s.g.cur = none) = _
      rw [hctl.1.cur, hb, outsideTurn]
      cases bodyCur s.thread.body <;> rfl
    obtain ⟨hmoves, hq⟩ := Context.step_depth hc (hctl.1.advance o.dt) hout ((h.pendsv c hp).saves (hadv o.dt))
    refine ⟨h.thread.saves hq.saved, fun d hd => ?_, ?_⟩
    · obtain rfl : c' = some d := hd
      exact hq
    · have hd := h.depth
      rw [machineOutside, hp, Nat.add_comm] at hd
      have hd' := Moves.account hmoves hd
      rw [Nat.add_comm] at hd'
      refine hd'.trans (congrArg UInt16.ofNat ?_)
      cases c' <;> rfl
  | @thread o g' c' _ hp hc =>
    rw [hp] at hctl
    have hout : s.thread.body = none → decide ((advance o.dt s.g).cur = none) = true := by
      intro hb
      show decide (s.g.cur = none) = _
      rw [hctl.cur, hb]
      rfl
    obtain ⟨hmoves, hq⟩ := Context.step_depth hc (hctl.advance o.dt) hout (h.thread.saves (hadv o.dt))
    refine ⟨hq, fun d hd => absurd (hp.symm.trans hd) (Option.some_ne_none d).symm, ?_⟩
    have hd := h.depth
    rw [machineOutside, hp] at hd
    show g'.waitDepth = UInt16.ofNat (stackOutside (c'.getD idle).frames + _)
    rw [hp]
    exact Moves.account hmoves hd

/-- The waits that are counted are those outside turns. -/
theorem Depth.counted (h : Depth s) : machineOutside s = waitsOutside s := by
  rw [machineOutside, waitsOutside, h.thread.frames.counted]
  congr 1
  cases hp : s.pendsv with
  | none => cases bodyCur s.thread.body <;> rfl
  | some c =>
    have hf := (h.pendsv c hp).frames
    rw [outsideTurn] at hf
    cases hb : bodyCur s.thread.body with
    | none =>
      rw [hb] at hf
      exact hf.counted
    | some t =>
      rw [hb] at hf
      exact hf.quiet

variable {now : Nat} {mutex : Nat → Mutex} {sem : Nat → Sem} {semb : Nat → Bool}
  {queue : Nat → Queue} {tr : List Event}

theorem Depth.boot : Depth (boot (bootGlobals now mutex sem semb queue)) where
  thread := ⟨fun _ => found_nil, fun b hb => absurd hb (Option.some_ne_none b).symm, found_nil⟩
  pendsv c hc := absurd hc (Option.some_ne_none c).symm
  depth := rfl

/-- **`mm_halow_sched_in_wait` tells whether a wait outside turns is under way**: its count is their
number, modulo its range, in every reachable state. -/
theorem in_wait_iff (h : Run (Step cfg) (boot (bootGlobals now mutex sem semb queue)) tr s) :
    s.g.waitDepth.toNat = waitsOutside s % 2 ^ 16 ∧
      (waitsOutside s < 2 ^ 16 → (inWait s.g = true ↔ 0 < waitsOutside s)) := by
  have hd : Depth s ∧ Control s :=
    h.inv (I := fun s => Depth s ∧ Control s) ⟨.boot, .boot⟩
      fun _ _ _ hi hs => ⟨hi.1.step hi.2 hs, hi.2.step hs⟩
  have hnat : s.g.waitDepth.toNat = waitsOutside s % 2 ^ 16 := by
    rw [hd.1.depth, UInt16.toNat_ofNat', hd.1.counted]
  refine ⟨hnat, fun hlt => ?_⟩
  rw [Nat.mod_eq_of_lt hlt] at hnat
  rw [inWait, decide_eq_true_eq, UInt16.lt_iff_toNat_lt, hnat]
  rfl

/-- Thread context waits, PendSV cuts in and waits as well. -/
def waitTwice : List Event :=
  .thread (calling (.semWait 0 100)) :: List.replicate 4 (.thread go) ++
    .dispatch :: .pendsv (calling (.semWait 0 100)) :: List.replicate 4 (.pendsv go)

theorem in_wait_iff_twice : ∃ s, Run (Step .defaults) bootBare waitTwice s ∧ waitsOutside s = 2 ∧
    inWait s.g = true := by
  obtain ⟨s, hs, hp⟩ := run_any (fun s => waitsOutside s = 2)
    (by decide +kernel : (waitTwice.foldlM (step .defaults) bootBare).any _ = true)
  have hn : waitsOutside s = 2 := of_decide_eq_true hp
  exact ⟨s, hs, hn, ((in_wait_iff hs).2 (by omega)).mpr (by omega)⟩

end MmHalow.Sched
