import MmHalow.Sched.FullPass
import MmHalow.Sched.Joins

/-!
# Poll requests (`mm_halow_request_poll`, `mm_halow_port_irq_handler`)

A request sets `mm_halow_poll_requested`; a poll that gets the claim and finds it set, or finds other
work, clears it and makes a full pass: the interrupt lines, the timers, `mm_halow_sched_run`. The
handler of the pin interrupt masks it and requests a poll; every poll that got the claim unmasks it
last, after it has released the claim.

`Polling` follows a run of the machine. `asked` counts the requests, `begun` those of them that the
last full pass to begin came after, and `atClaim` those made by the time a context last got the claim
for a poll. `sched` is what has become of the `mm_halow_sched_run` of each full pass, told by the
frames of the context before and after a step.

* `Step.flag`: only a request sets the flag, only the beginning of a full pass clears it.
* `stackStep_polls`: a poll that got the claim stays on its stack and goes on in the order of its code.
* `requests_served`: **in every run the flag is set exactly while no full pass has begun after the last
  request; a poll that got the claim has, once it is past the store that clears the flag or has found
  it clear, every request made before its claim behind the beginning of a full pass; the full pass
  calls `mm_halow_sched_run`, which enters where runs are made under claims; and while the pin
  interrupt is masked there is a request, or one that its handler has still to make, or a poll that has
  still to unmask it.**
* `masked_released`: a state of a run in which that poll has released the claim.
-/

namespace MmHalow.Sched

open MmHalow.Lib MmHalow.Lib.Clock MmHalow.Osal

/-! ## Polls on the stacks -/

/-- Where a poll stands. -/
def Frame.pollPc : Frame → Option PollPc
  | .poll pc => some pc
  | _ => none

/-- Where a poll that got the claim goes next. A full pass is what lies between `request` and
`release`; at the lines and the timers it runs code of morselib. -/
def PollPc.goesTo : PollPc → List PollPc
  | .requested => [.request, .irqPending]
  | .irqPending => [.request, .timerPending]
  | .timerPending => [.request, .schedPending]
  | .schedPending => [.request, .quietRelease]
  | .quietRelease => [.rearm]
  | .request => [.irqs]
  | .irqs => [.irqs, .timers]
  | .timers => [.timers, .run]
  | .run => [.inRun]
  | .inRun => [.release]
  | .release => [.rearm]
  | _ => []

/-- The poll got the claim. -/
def PollPc.granted : PollPc → Bool
  | .initted => false
  | .current => false
  | .claim => false
  | .refused => false
  | _ => true

/-- Where the poll that a context executes stands. -/
def Context.pollPc (c : Context) : Option PollPc := c.executing.head?.bind Frame.pollPc

/-- The poll has the claim and has still to look at the flag, or to clear it. -/
def Context.looking (c : Context) : Bool :=
  c.body.isNone && (c.pollPc = some .requested || c.pollPc = some .request)

def Machine.looking (s : Machine) (x : Ctx) : Bool := (s.ctx x).any Context.looking

/-- The step of a poll that an event makes, and the context that makes it. -/
def Machine.polls (s : Machine) : Event → Option (Ctx × PollPc)
  | .pendsv _ => s.pendsv.bind fun c => c.pollPc.map (Ctx.irq, ·)
  | .thread _ => s.thread.pollPc.map (Ctx.thread, ·)
  | _ => none

/-- The event sets `mm_halow_poll_requested`. -/
def Machine.requests (s : Machine) (e : Event) : Bool := (s.micro e).map Prod.fst = some .requestPoll

/-! ## Following the requests -/

/-- The machine, whether the pin interrupt is masked, and the requests: all, those before the last
full pass to begin, and those before a context last got the claim for a poll; and what has become of
the `mm_halow_sched_run` of the poll above so many frames of a context. -/
structure Polling where
  m : Machine
  masked : Bool
  asked : Nat
  begun : Nat
  atClaim : Ctx → Nat
  sched : Ctx → Nat → Entry

/-- `mm_halow_port_irq_handler` is taken, or the machine makes a step. -/
inductive PollingEvent where
  | pin
  | step (e : Event)
  deriving Repr, DecidableEq

/-- What an event makes of the bookkeeping, `m` being the machine after it. -/
def Polling.after (s : Polling) (e : Event) (m : Machine) : Polling where
  m := m
  masked := match s.m.polls e with
    | some (_, .rearm) => false
    | _ => s.masked
  asked := if s.m.requests e then s.asked + 1 else s.asked
  begun := match s.m.polls e with
    | some (_, .request) => s.asked
    | _ => s.begun
  atClaim := match s.m.polls e with
    | some (x, .claim) =>
      if (claim x s.m.g).1 then Function.update s.atClaim x s.asked else s.atClaim
    | _ => s.atClaim
  sched x := entryAfter (s.m.ctx x) (m.ctx x) (s.sched x)

/-- One step. The handler masks the interrupt and goes on to its request. -/
def Polling.next (cfg : Config) (s : Polling) : PollingEvent → Option Polling
  | .pin => (step cfg s.m (.isr .requestPoll)).map fun m => { s with m := m, masked := true }
  | .step e => (step cfg s.m e).map (s.after e)

/-- The step as a relation. -/
def Polling.Step (cfg : Config) (s : Polling) (e : PollingEvent) (u : Polling) : Prop :=
  s.next cfg e = some u

/-- The pin interrupt is enabled, and nothing has been requested. -/
def Polling.boot (g : Globals) : Polling := ⟨Sched.boot g, false, 0, 0, fun _ => 0, fun _ _ => .due⟩

/-- A poll that got the claim and has still to unmask the pin interrupt. -/
def Frame.unmasks (f : Frame) : Bool := f.pollPc.any PollPc.granted

/-- `p` of some frame of a context outside its turns. -/
def Machine.has (s : Machine) (p : Frame → Bool) : Prop :=
  ∃ x c, s.ctx x = some c ∧ ∃ f ∈ c.frames, p f

/-! ## The flag -/

variable {cfg : Config} {x : Ctx} {o : Choice} {g g' : Globals} {f : Frame} {mv : Move}
  {c : Context} {c' : Option Context} {l rest : List Frame} {pc : PollPc}

/-- The flag after an operation step `m` or a poll step at `pc`. -/
def flagAfter (m : Option Micro) (pc : Option PollPc) (flag : Bool) : Bool :=
  if m = some .requestPoll then true else if pc = some .request then false else flag

theorem evalCond_flag (c : Cond) : (evalCond cfg c g).2.pollRequested = g.pollRequested := by
  cases c with
  | queuePopped q =>
    simp only [evalCond]
    split <;> rfl
  | queuePushed q item =>
    simp only [evalCond]
    split_ifs <;> rfl
  | mutexAcquired m => rfl
  | sembTaken s => rfl
  | isDead t => rfl
  | _ =>
    simp only [evalCond]
    split_ifs <;> rfl

theorem microStep_flag (m : Micro) (todo : List Micro) (heap : Bool) :
    (microStep cfg heap m todo g).2.pollRequested = flagAfter (some m) none g.pollRequested := by
  cases m with
  | semGive s =>
    simp only [microStep]
    split_ifs <;> rfl
  | queuePush q item =>
    simp only [microStep]
    split_ifs <;> rfl
  | queuePop q =>
    simp only [microStep]
    split <;> rfl
  | deleteSelf =>
    simp only [microStep]
    split <;> rfl
  | create =>
    simp only [microStep]
    split
    · rfl
    · next h =>
      obtain ⟨t, -, rfl⟩ := taskCreate_cases h
      rfl
  | pending =>
    simp only [microStep]
    split_ifs <;> rfl
  | _ => rfl

theorem claim_flag (x : Ctx) (g : Globals) : (claim x g).2.pollRequested = g.pollRequested := by
  unfold claim
  split_ifs <;> rfl

theorem release_flag (g : Globals) : (release g).pollRequested = g.pollRequested := by
  unfold release
  split_ifs <;> rfl

theorem pollStep_flag :
    (pollStep x o g pc).1.pollRequested = flagAfter none (some pc) g.pollRequested := by
  cases pc with
  | schedPending =>
    simp only [pollStep]
    split_ifs <;> rfl
  | claim => exact claim_flag x g
  | quietRelease => exact release_flag g
  | release => exact release_flag g
  | _ => rfl

theorem frameStep_flag : (frameStep cfg x o g f).1.pollRequested =
    flagAfter f.micro f.pollPc g.pollRequested := by
  cases f with
  | poll pc => exact pollStep_flag
  | yield pc =>
    cases pc with
    | claim => exact claim_flag x g
    | release => exact release_flag g
    | _ => rfl
  | park timed wakeAt pc =>
    cases pc with
    | deadline t =>
      simp only [frameStep, parkStep]
      split_ifs <;> rfl
    | _ => rfl
  | run pc => cases pc <;> rfl
  | wait c evals w =>
    simp only [frameStep, waitFrame]
    split
    case h_2 => exact evalCond_flag c
    all_goals rfl
  | notifyWait timeoutMs => rfl
  | mutexGet m timeoutMs pc => rfl
  | op todo =>
    cases todo with
    | nil => rfl
    | cons m todo =>
      by_cases hm : ∃ t, m = .retire t
      · obtain ⟨t, rfl⟩ := hm
        rfl
      · have hop : opStep cfg o g (m :: todo) =
            ((microStep cfg o.heap m todo g).2, .goto (.op (microStep cfg o.heap m todo g).1)) := by
          unfold opStep
          split
          · next h => cases h
          · next h => exact absurd ⟨_, (List.cons.inj h).1⟩ hm
          · next h =>
            obtain ⟨rfl, rfl⟩ := List.cons.inj h
            rfl
        show (opStep cfg o g (m :: todo)).1.pollRequested = _
        rw [hop]
        exact microStep_flag m todo o.heap
  | region pc =>
    cases pc with
    | claim => exact claim_flag x g
    | release => exact release_flag g
    | _ => rfl

/-- The operation step and the poll step of a stack. -/
def topMicro (l : List Frame) : Option Micro := l.head?.bind Frame.micro
def topPc (l : List Frame) : Option PollPc := l.head?.bind Frame.pollPc

theorem Context.micro_eq (c : Context) : c.micro = topMicro c.executing := by
  unfold Context.micro Context.executing
  cases c.body <;> rfl

theorem stackStep_flag (cfg : Config) (x : Ctx) (o : Choice) (g : Globals) (l : List Frame) :
    (stackStep cfg x o g l).1.pollRequested = flagAfter (topMicro l) (topPc l) g.pollRequested := by
  cases l with
  | nil => rfl
  | cons f rest => exact frameStep_flag

/-- What ends a stack's turn does not touch the flag. -/
theorem stackStep_left_flag (h : ∀ l', (stackStep cfg x o g l).2 ≠ .frames l') :
    (stackStep cfg x o g l).1.pollRequested = g.pollRequested := by
  cases l with
  | nil => rfl
  | cons f rest =>
    have hexit := frameStep_exit (Prod.eta (frameStep cfg x o g f)).symm
    have hmv : ∀ l', (frameStep cfg x o g f).2.onto rest ≠ .frames l' := h
    show (frameStep cfg x o g f).1.pollRequested = _
    generalize (frameStep cfg x o g f).1 = g1 at hexit ⊢
    generalize (frameStep cfg x o g f).2 = mv at hexit hmv
    cases hexit with
    | stay hs =>
      cases mv with
      | goto f' => exact absurd rfl (hmv _)
      | call f' callee => exact absurd rfl (hmv _)
      | ret r => exact absurd rfl (hmv _)
      | _ => exact absurd hs Bool.false_ne_true
    | _ => rfl

theorem bodyStep_flag (pc : RunPc) : (bodyStep cfg g pc).1.pollRequested = g.pollRequested := by
  cases pc with
  | walk pass t => cases t <;> rfl
  | _ => rfl

/-- **Only a request sets the flag, only a poll that begins a full pass clears it**: one step of a
context. -/
theorem Context.step_flag (hok : ∀ b, c.body = some b → BodyOk b) :
    (c.step cfg x o g).1.pollRequested = flagAfter c.micro c.pollPc g.pollRequested := by
  rw [c.micro_eq]
  show _ = flagAfter (topMicro c.executing) (topPc c.executing) _
  rw [← stackStep_flag cfg x o]
  unfold Context.executing
  unfold Context.step
  split
  · next hb =>
    rw [hb]
    simp only
    split
    · rfl
    · rfl
    · rfl
    · next h => exact (stackStep_left_flag (by rw [h]; nofun)).symm
    · next h => exact (stackStep_left_flag (by rw [h]; nofun)).symm
  · next pass t fr hb =>
    rw [hb]
    simp only
    split
    · rfl
    · rfl
    · split_ifs
      · rfl
      · next h _ => exact (stackStep_left_flag (by rw [h]; nofun)).symm
    · split_ifs
      · rfl
      · next h _ => exact (stackStep_left_flag (by rw [h]; nofun)).symm
    · next h => exact (stackStep_left_flag (by rw [h]; nofun)).symm
  · next pc fr hpc hb =>
    have hfr : fr = [] := by
      have := hok _ hb
      unfold BodyOk at this
      split at this
      · next pass t hin => exact absurd hin (hpc pass t)
      · exact this
    rw [hb, hfr]
    exact bodyStep_flag pc

/-! ## The polls -/

/-- The poll goes on, with or without a call, or has unmasked the pin interrupt and returns. -/
theorem pollStep_goesTo (h : pc.granted = true) :
    (∃ pc' ∈ pc.goesTo, (pollStep x o g pc).2 = .goto (.poll pc') ∨
      ∃ callee, (pollStep x o g pc).2 = .call (.poll pc') callee) ∨
    pc = .rearm ∧ (pollStep x o g pc).2 = .ret true := by
  cases pc with
  | requested =>
    refine .inl ⟨_, ?_, .inl rfl⟩
    split_ifs <;> decide
  | irqPending =>
    refine .inl ⟨_, ?_, .inl rfl⟩
    split_ifs <;> decide
  | timerPending =>
    refine .inl ⟨_, ?_, .inl rfl⟩
    split_ifs <;> decide
  | schedPending =>
    simp only [pollStep]
    split_ifs
    · exact .inl ⟨_, by decide, .inl rfl⟩
    · exact .inl ⟨_, by decide, .inl rfl⟩
  | irqs =>
    simp only [pollStep, codeStep]
    split
    · exact .inl ⟨.irqs, by decide, .inr ⟨_, rfl⟩⟩
    · exact .inl ⟨.timers, by decide, .inl rfl⟩
  | timers =>
    simp only [pollStep, codeStep]
    split
    · exact .inl ⟨.timers, by decide, .inr ⟨_, rfl⟩⟩
    · exact .inl ⟨.run, by decide, .inl rfl⟩
  | quietRelease => exact .inl ⟨.rearm, by decide, .inl rfl⟩
  | request => exact .inl ⟨.irqs, by decide, .inl rfl⟩
  | run => exact .inl ⟨.inRun, by decide, .inr ⟨_, rfl⟩⟩
  | inRun => exact .inl ⟨.release, by decide, .inl rfl⟩
  | release => exact .inl ⟨.rearm, by decide, .inl rfl⟩
  | rearm => exact .inr ⟨rfl, rfl⟩
  | _ => exact absurd h Bool.false_ne_true

theorem suffix_return {r : Bool} (h : .poll pc :: rest <:+ l) :
    .poll pc :: rest <:+ returnTo r l := by
  cases l with
  | nil => exact h
  | cons f tail =>
    rcases List.suffix_cons_iff.mp h with he | ht
    · obtain ⟨rfl, rfl⟩ := List.cons.inj he
      exact List.suffix_refl _
    · exact ht.trans (List.suffix_cons _ _)

/-- Where a poll that got the claim may be after a step: where it was, or where it goes. -/
def StaysOn (pc : PollPc) (rest l : List Frame) : Prop :=
  ∃ pc', (pc' = pc ∨ pc' ∈ pc.goesTo) ∧ .poll pc' :: rest <:+ l

/-- **A poll that got the claim stays on its stack**, unless it is on top and has unmasked the pin
interrupt. -/
theorem stackStep_polls (hpc : pc.granted = true) (hl : .poll pc :: rest <:+ l) :
    StaysOn pc rest (stackStep cfg x o g l).2.stay ∨ pc = .rearm ∧ l = .poll .rearm :: rest ∨
      ∃ t, (stackStep cfg x o g l).2 = .retire t := by
  cases l with
  | nil => exact absurd (List.suffix_nil.mp hl) (List.cons_ne_nil _ _)
  | cons f tail =>
    rcases List.suffix_cons_iff.mp hl with he | ht
    · obtain ⟨rfl, rfl⟩ := List.cons.inj he
      show StaysOn pc rest ((pollStep x o g pc).2.onto rest).stay ∨ _
      rcases pollStep_goesTo (x := x) (o := o) (g := g) hpc with ⟨pc', hto, hmv⟩ | ⟨rfl, -⟩
      · refine .inl ⟨pc', .inr hto, ?_⟩
        rcases hmv with hmv | ⟨callee, hmv⟩
        · rw [hmv]
          exact List.suffix_refl _
        · rw [hmv]
          exact List.suffix_cons _ _
      · exact .inr (.inl ⟨rfl, rfl⟩)
    · show StaysOn pc rest ((frameStep cfg x o g f).2.onto tail).stay ∨ _
      cases hmv : (frameStep cfg x o g f).2 with
      | goto f' => exact .inl ⟨pc, .inl rfl, ht.trans (List.suffix_cons _ _)⟩
      | call f' callee =>
        exact .inl ⟨pc, .inl rfl, (ht.trans (List.suffix_cons _ _)).trans (List.suffix_cons _ _)⟩
      | ret r => exact .inl ⟨pc, .inl rfl, suffix_return ht⟩
      | switch t => exact .inl ⟨pc, .inl rfl, ht⟩
      | enter => exact .inl ⟨pc, .inl rfl, ht⟩
      | retire t => exact .inr (.inr ⟨t, congrArg (Move.onto tail) hmv⟩)

/-- The same of a context: a task's turn leaves its frames alone. -/
theorem Context.step_polls (hst : c.step cfg x o g = (g', c')) (hpc : pc.granted = true)
    (hl : .poll pc :: rest <:+ c.frames) :
    (∃ d, c' = some d ∧ StaysOn pc rest d.frames) ∨
      pc = .rearm ∧ c.body = none ∧ c.frames = .poll .rearm :: rest := by
  have hstay : StaysOn pc rest c.frames := ⟨pc, .inl rfl, hl⟩
  have hstack : StaysOn pc rest (stackStep cfg x o g c.frames).2.stay ∨ _ := stackStep_polls hpc hl
  cases Context.step_cases hst with
  | @frames g' l hb hs =>
    rcases hstack with h | ⟨rfl, h⟩ | ⟨t, h⟩
    · rw [hs] at h
      exact .inl ⟨_, rfl, h⟩
    · exact .inr ⟨rfl, hb, h⟩
    · rw [hs] at h
      exact nomatch h
  | @enter g' l hb hs =>
    rcases hstack with h | ⟨rfl, h⟩ | ⟨t, h⟩
    · rw [hs] at h
      exact .inl ⟨_, rfl, h⟩
    · exact .inr ⟨rfl, hb, h⟩
    · rw [hs] at h
      exact nomatch h
  | finished hb hs =>
    rcases hstack with ⟨pc', -, h⟩ | ⟨rfl, h⟩ | ⟨t, h⟩
    · rw [hs] at h
      exact absurd (List.suffix_nil.mp h) (List.cons_ne_nil _ _)
    · exact .inr ⟨rfl, hb, h⟩
    · rw [hs] at h
      exact nomatch h
  | _ => exact .inl ⟨_, rfl, hstay⟩

/-- Only the frames of a context itself are polls that got the claim, or come to it. -/
theorem CtxOk.pollPc {other : Option Body} (h : CtxOk g other c)
    (hpc : c.pollPc = some pc) : c.body = none ∨ pc = .initted ∨ pc = .current := by
  unfold Context.pollPc Context.executing at hpc
  cases hb : c.body with
  | none => exact .inl rfl
  | some b =>
    rw [hb] at hpc
    have hok := h.body b hb
    obtain ⟨bpc, fr⟩ := b
    cases fr with
    | nil => exact nomatch hpc
    | cons f fr =>
      cases f with
      | poll pc' =>
        obtain rfl := Option.some.inj hpc
        unfold BodyOk at hok
        split at hok
        · exact .inr (hok _ List.mem_cons_self)
        · exact absurd hok (List.cons_ne_nil _ _)
      | _ => exact nomatch hpc

/-- The frame on top of a context that executes a poll. -/
theorem Context.pollPc_top (hb : c.body = none) (hpc : c.pollPc = some pc) :
    ∃ rest, c.frames = .poll pc :: rest := by
  unfold Context.pollPc Context.executing at hpc
  rw [hb] at hpc
  cases hf : c.frames with
  | nil => rw [hf] at hpc; exact nomatch hpc
  | cons f rest =>
    rw [hf] at hpc
    cases f with
    | poll pc' =>
      obtain rfl := Option.some.inj hpc
      exact ⟨rest, rfl⟩
    | _ => exact nomatch hpc

/-- **A poll that gets the claim looks at the flag next**, and one that finds it set clears it next. -/
theorem Context.step_looking (hb : c.body = none)
    (h : c.pollPc = some .claim ∧ (claim x g).1 = true ∨
      c.pollPc = some .requested ∧ g.pollRequested = true) :
    ∃ d, (c.step cfg x o g).2 = some d ∧ d.looking = true := by
  rcases h with ⟨hpc, hg⟩ | ⟨hpc, hf⟩
  · obtain ⟨rest, hl⟩ := Context.pollPc_top hb hpc
    refine ⟨⟨.poll .requested :: rest, none⟩, ?_, rfl⟩
    simp [Context.step, hb, hl, stackStep, frameStep, pollStep, hg, Move.onto]
  · obtain ⟨rest, hl⟩ := Context.pollPc_top hb hpc
    refine ⟨⟨.poll .request :: rest, none⟩, ?_, rfl⟩
    simp [Context.step, hb, hl, stackStep, frameStep, pollStep, hf, Move.onto]

/-! ## One step of the machine -/

variable {s u : Machine} {e : Event}

/-- The context that an event moves, where it moves one. -/
inductive Mover (cfg : Config) (s : Machine) (e : Event) (u : Machine) : Prop
  | none : s.polls e = none → (∀ x c, s.ctx x = some c → u.ctx x = some c) →
      u.g.pollRequested = flagAfter ((s.micro e).map Prod.fst) none s.g.pollRequested →
      Mover cfg s e u
  | ctx {x : Ctx} {c : Context} {other : Option Body} {o : Choice} : s.ctx x = some c →
      CtxOk (advance o.dt s.g) other c → s.polls e = c.pollPc.map (x, ·) →
      (s.micro e).map Prod.fst = c.micro → u.g = (c.step cfg x o (advance o.dt s.g)).1 →
      (∀ d, (c.step cfg x o (advance o.dt s.g)).2 = some d → u.ctx x = some d) →
      (∀ y, y ≠ x → u.ctx y = s.ctx y) → Mover cfg s e u

theorem Step.mover (hc : Control s) (h : Step cfg s e u) : Mover cfg s e u := by
  unfold Control at hc
  cases h.cases with
  | isr => exact .none rfl (fun x c hx => by cases x <;> exact hx) rfl
  | @isrDone o rest hi =>
    refine .none rfl (fun x c hx => by cases x <;> exact hx) ?_
    simp only [Machine.micro, hi]
    rfl
  | @isrStep o m todo rest hi =>
    refine .none rfl (fun x c hx => by cases x <;> exact hx) ?_
    simp only [Machine.micro, hi]
    exact microStep_flag m todo o.heap
  | dispatch _ hp =>
    refine .none rfl ?_ rfl
    intro x c hx
    cases x with
    | thread => exact hx
    | irq => exact absurd (hp.symm.trans hx) (Option.some_ne_none c).symm
  | @pendsv o c g' c' _ hp hst =>
    rw [hp] at hc
    refine .ctx (x := .irq) (o := o) hp (hc.1.advance o.dt) ?_ ?_ (by rw [hst]) ?_ ?_
    · simp only [Machine.polls, hp, Option.bind_some]
    · simp only [Machine.micro, hp, Option.bind_some, Option.map_map]
      exact Option.map_id'
    · intro d hd
      rw [hst] at hd
      exact hd
    · intro y hy
      cases y with
      | thread => rfl
      | irq => exact absurd rfl hy
  | @thread o g' c' _ hp hst =>
    rw [hp] at hc
    refine .ctx (x := .thread) (o := o) rfl (hc.advance o.dt) rfl ?_ (by rw [hst]) ?_ ?_
    · simp only [Machine.micro, Option.map_map]
      exact Option.map_id'
    · intro d hd
      rw [hst] at hd
      exact congrArg some (by rw [show c' = some d from hd]; rfl)
    · intro y hy
      cases y with
      | thread => exact absurd rfl hy
      | irq => rfl

/-- **Only a request sets the flag, only a poll that begins a full pass clears it.** -/
theorem Step.flag (hc : Control s) (h : Step cfg s e u) : u.g.pollRequested =
    flagAfter ((s.micro e).map Prod.fst) ((s.polls e).map Prod.snd) s.g.pollRequested := by
  cases h.mover hc with
  | none hp _ hf =>
    rw [hp]
    exact hf
  | ctx _ hok hp hm hg =>
    rw [hp, hm, hg, Context.step_flag hok.body, Option.map_map]
    exact congrArg (flagAfter _ · _) Option.map_id'.symm

/-- A handler that has still to make its request makes it. -/
theorem Step.isrs (h : Step cfg s e u) (hi : [.requestPoll] ∈ s.isrs) :
    [.requestPoll] ∈ u.isrs ∨ s.requests e = true := by
  cases h.cases with
  | isr => exact .inl (List.mem_cons_of_mem _ hi)
  | @isrDone o rest hs =>
    rw [hs] at hi
    exact .inl ((List.mem_cons.mp hi).resolve_left (List.cons_ne_nil _ _))
  | @isrStep o m todo rest hs =>
    rw [hs] at hi
    rcases List.mem_cons.mp hi with h | h
    · obtain ⟨rfl, -⟩ := List.cons.inj h
      right
      simp only [Machine.requests, Machine.micro, hs]
      rfl
    · exact .inl (List.mem_cons_of_mem _ h)
  | _ => exact .inl hi

/-- **A poll that got the claim stays on its stack and goes on**, until it unmasks the pin interrupt. -/
theorem Step.polls (hc : Control s) (h : Step cfg s e u) (hx : s.ctx x = some c)
    (hpc : pc.granted = true) (hl : .poll pc :: rest <:+ c.frames) :
    (∃ d, u.ctx x = some d ∧ StaysOn pc rest d.frames) ∨
      pc = .rearm ∧ s.polls e = some (x, .rearm) := by
  have hstay : StaysOn pc rest c.frames := ⟨pc, .inl rfl, hl⟩
  cases h.mover hc with
  | none _ hctx => exact .inl ⟨c, hctx x c hx, hstay⟩
  | @ctx y c' _ o hy _ hp _ _ hd hother =>
    by_cases hxy : x = y
    · subst hxy
      obtain rfl := Option.some.inj (hy.symm.trans hx)
      rcases Context.step_polls (Prod.eta (c'.step cfg x o _)).symm hpc hl with
        ⟨d, hs, hst⟩ | ⟨rfl, hb, hf⟩
      · exact .inl ⟨d, hd d hs, hst⟩
      · refine .inr ⟨rfl, ?_⟩
        rw [hp, Context.pollPc, Context.executing, hb, hf]
        rfl
    · exact .inl ⟨c, (hother x hxy).trans hx, hstay⟩

/-- A poll that is to look at the flag, or to clear it, does so; one that gets the claim is to. -/
theorem Step.looking (hc : Control s) (h : Step cfg s e u) (x : Ctx) :
    (s.looking x = true →
      u.looking x = true ∨ s.g.pollRequested = false ∨ s.polls e = some (x, .request)) ∧
    (s.polls e = some (x, .claim) → (claim x s.g).1 = true → u.looking x = true) := by
  cases h.mover hc with
  | none hp hctx =>
    constructor
    · intro hlook
      obtain ⟨c, hx, hl⟩ := (Option.any_eq_true _ _).mp hlook
      left
      rw [Machine.looking, hctx x c hx]
      exact hl
    · intro he
      rw [hp] at he
      exact nomatch he
  | @ctx y c other o hy hok hp _ _ hd hother =>
    have hmove : x = y → (c.pollPc = some .claim ∧ (claim x s.g).1 = true ∨
        c.pollPc = some .requested ∧ s.g.pollRequested = true) → c.body = none →
        u.looking x = true := by
      rintro rfl hm hb
      obtain ⟨d, hs, hl⟩ :
          ∃ d, (c.step cfg x o (advance o.dt s.g)).2 = some d ∧ d.looking = true :=
        Context.step_looking hb (hm.imp_left fun ⟨hpc, hg⟩ =>
          ⟨hpc, claim_granted_iff.mpr ((claim_granted_iff (g := s.g)).mp hg)⟩)
      rw [Machine.looking, hd d hs]
      exact hl
    constructor
    · intro hlook
      by_cases hxy : x = y
      · subst hxy
        rw [Machine.looking, hy, Option.any_some, Context.looking, Bool.and_eq_true,
          Option.isNone_iff_eq_none, Bool.or_eq_true, decide_eq_true_eq, decide_eq_true_eq] at hlook
        obtain ⟨hb, hpc | hpc⟩ := hlook
        · cases hf : s.g.pollRequested with
          | true => exact .inl (hmove rfl (.inr ⟨hpc, hf⟩) hb)
          | false => exact .inr (.inl rfl)
        · right
          right
          rw [hp, hpc]
          rfl
      · left
        rw [Machine.looking, hother x hxy]
        exact hlook
    · intro he hg
      rw [hp] at he
      obtain ⟨pc, hpc, hxy⟩ := Option.map_eq_some_iff.mp he
      obtain ⟨rfl, rfl⟩ := Prod.mk.inj hxy
      refine hmove rfl (.inl ⟨hpc, hg⟩) ((hok.pollPc hpc).resolve_right ?_)
      rintro (h | h)
      · exact nomatch h
      · exact nomatch h

/-! ## Runs -/

/-- A request is pending, or its handler has still to make it, or a poll that got the claim is in
progress and has still to unmask the pin interrupt. -/
def Unmasked (s : Polling) : Prop :=
  s.m.g.pollRequested = true ∨ [.requestPoll] ∈ s.m.isrs ∨ s.m.has Frame.unmasks

/-- What holds of the requests in every reachable state. -/
structure Counted (s : Polling) : Prop where
  control : Control s.m
  begun : s.begun ≤ s.asked
  flag : s.m.g.pollRequested = true ↔ s.begun < s.asked
  atClaim : ∀ x, s.atClaim x ≤ s.asked
  served : ∀ x, s.m.looking x = true ∨ s.atClaim x ≤ s.begun
  masked : s.masked = true → Unmasked s
  ran : ∀ x c, s.m.ctx x = some c → Ran c (s.sched x)

variable {p q : Polling}

theorem Counted.pin {m : Machine} (h : Counted p) (hs : Step cfg p.m (.isr .requestPoll) m) :
    Counted { p with m := m, masked := true } := by
  have hcontrol := h.control.step hs
  cases hs.cases with
  | isr =>
    refine ⟨hcontrol, h.begun, h.flag, h.atClaim, h.served,
      fun _ => .inr (.inl List.mem_cons_self), fun x c hx => h.ran x c ?_⟩
    cases x <;> exact hx

theorem goesTo_granted {pc' : PollPc} (h : pc' ∈ pc.goesTo) : pc'.granted = true := by
  cases pc with
  | rearm => exact absurd h List.not_mem_nil
  | _ => revert pc'; decide

theorem StaysOn.has {d : Context} (hx : u.ctx x = some d) (hpc : pc.granted = true)
    (h : StaysOn pc rest d.frames) : u.has Frame.unmasks := by
  obtain ⟨pc', hto, hl⟩ := h
  refine ⟨x, d, hx, .poll pc', hl.subset List.mem_cons_self, ?_⟩
  rcases hto with rfl | hto
  · exact hpc
  · exact goesTo_granted hto

/-- The poll that an event moves, once it got the claim, is on top of its context. -/
theorem Step.polls_top (hc : Control s) (h : Step cfg s e u) (hp : s.polls e = some (x, pc))
    (hpc : pc.granted = true) : ∃ c rest, s.ctx x = some c ∧ c.frames = .poll pc :: rest := by
  cases h.mover hc with
  | none hn =>
    rw [hn] at hp
    exact nomatch hp
  | @ctx y c _ o hy hok hpolls =>
    rw [hpolls] at hp
    obtain ⟨pc', hpc', hxy⟩ := Option.map_eq_some_iff.mp hp
    obtain ⟨rfl, rfl⟩ := Prod.mk.inj hxy
    have hb : c.body = none := by
      refine (hok.pollPc hpc').resolve_right ?_
      rintro (rfl | rfl)
      · exact absurd hpc Bool.false_ne_true
      · exact absurd hpc Bool.false_ne_true
    obtain ⟨rest, hf⟩ := Context.pollPc_top hb hpc'
    exact ⟨c, rest, hy, hf⟩

/-- The pin interrupt stays accounted for, unless a poll unmasks it. -/
theorem Unmasked.step {m : Machine} (hc : Control p.m) (hs : Step cfg p.m e m) (h : Unmasked p)
    (hre : ∀ x, p.m.polls e ≠ some (x, .rearm)) : Unmasked (p.after e m) := by
  have hflag := hs.flag hc
  -- a request sets the flag
  have hasked : p.m.requests e = true → m.g.pollRequested = true := by
    intro hr
    rw [hflag, of_decide_eq_true hr]
    rfl
  have hstays : ∀ {x c pc rest}, p.m.ctx x = some c → pc.granted = true →
      .poll pc :: rest <:+ c.frames → m.has Frame.unmasks := by
    intro x c pc rest hx hpc hl
    rcases hs.polls hc hx hpc hl with ⟨d, hd, hst⟩ | ⟨-, hp⟩
    · exact hst.has hd hpc
    · exact absurd hp (hre x)
  rcases h with hf | hi | ⟨x, c, hx, f, hmem, hun⟩
  · by_cases hr : p.m.requests e = true
    · exact .inl (hasked hr)
    · by_cases hreq : (p.m.polls e).map Prod.snd = some .request
      · obtain ⟨⟨x, pc⟩, hp, rfl⟩ := Option.map_eq_some_iff.mp hreq
        obtain ⟨c, rest, hx, hfr⟩ := hs.polls_top hc hp rfl
        have hl : .poll .request :: rest <:+ c.frames := ⟨[], hfr.symm⟩
        exact .inr (.inr (hstays hx (show PollPc.granted .request = true from rfl) hl))
      · left
        show m.g.pollRequested = true
        rw [hflag, flagAfter, if_neg (fun h => hr (decide_eq_true h)), if_neg hreq]
        exact hf
  · rcases hs.isrs hi with hi | hr
    · exact .inr (.inl hi)
    · exact .inl (hasked hr)
  · obtain ⟨l₁, l₂, hl⟩ := List.append_of_mem hmem
    cases f with
    | poll pc => exact .inr (.inr (hstays hx hun ⟨l₁, hl.symm⟩))
    | _ => exact absurd hun Bool.false_ne_true

/-- What a step makes of the count of the requests that a full pass has begun after. -/
theorem Counted.begun_step (h : Counted p) (e : Event) (m : Machine) :
    p.begun ≤ (p.after e m).begun ∧ (p.after e m).begun ≤ p.asked ∧
      ∀ x, p.m.polls e = some (x, .request) → (p.after e m).begun = p.asked := by
  refine ⟨?_, ?_, fun x hx => by simp only [Polling.after, hx]⟩
  · simp only [Polling.after]
    split
    · exact h.begun
    · exact Nat.le_refl _
  · simp only [Polling.after]
    split
    · exact Nat.le_refl _
    · exact h.begun

/-- **The flag is set exactly while no full pass has begun after the last request.** -/
theorem Counted.flag_step {m : Machine} (h : Counted p) (hs : Step cfg p.m e m) :
    m.g.pollRequested = true ↔ (p.after e m).begun < (p.after e m).asked := by
  obtain ⟨-, hbegun, hpass⟩ := h.begun_step e m
  rw [hs.flag h.control]
  by_cases hr : p.m.requests e = true
  · have hm : (p.m.micro e).map Prod.fst = some .requestPoll := of_decide_eq_true hr
    have hasked : (p.after e m).asked = p.asked + 1 := if_pos hr
    rw [hm, hasked, flagAfter, if_pos rfl]
    exact ⟨fun _ => Nat.lt_succ_of_le hbegun, fun _ => rfl⟩
  · have hm : (p.m.micro e).map Prod.fst ≠ some .requestPoll := fun h => hr (decide_eq_true h)
    have hasked : (p.after e m).asked = p.asked := if_neg hr
    rw [hasked, flagAfter, if_neg hm]
    cases hp : p.m.polls e with
    | none =>
      simp only [Polling.after, hp]
      exact h.flag
    | some step =>
      obtain ⟨y, pc⟩ := step
      cases pc with
      | request =>
        rw [hpass y hp]
        exact ⟨fun hf => absurd hf Bool.false_ne_true, fun hlt => absurd hlt (Nat.lt_irrefl _)⟩
      | _ =>
        simp only [Polling.after, hp]
        exact h.flag

/-- **One step of the machine keeps the account of the requests.** -/
theorem Counted.step {m : Machine} (h : Counted p) (hs : Step cfg p.m e m) :
    Counted (p.after e m) := by
  obtain ⟨hle, hbegun, hpass⟩ := h.begun_step e m
  have hasked : p.asked ≤ (p.after e m).asked := by
    simp only [Polling.after]
    split_ifs
    · exact Nat.le_succ _
    · exact Nat.le_refl _
  -- a context that gets the claim for a poll looks at the flag next
  have hclaim : ∀ x, (p.after e m).atClaim x = p.atClaim x ∨
      (p.after e m).atClaim x = p.asked ∧ m.looking x = true := by
    intro x
    cases hp : p.m.polls e with
    | none => exact .inl (by simp only [Polling.after, hp])
    | some step =>
      obtain ⟨y, pc⟩ := step
      cases pc with
      | claim =>
        simp only [Polling.after, hp]
        split_ifs with hg
        · by_cases hxy : x = y
          · subst hxy
            exact .inr ⟨Function.update_self .., (hs.looking h.control x).2 hp hg⟩
          · exact .inl (Function.update_of_ne hxy _ _)
        · exact .inl rfl
      | _ => exact .inl (by simp only [Polling.after, hp])
  refine ⟨h.control.step hs, hbegun.trans hasked, ?_, ?_, ?_, ?_, hs.ran h.ran⟩
  · exact h.flag_step hs
  · intro x
    rcases hclaim x with he | ⟨he, -⟩
    · rw [he]
      exact (h.atClaim x).trans hasked
    · rw [he]
      exact hasked
  · intro x
    rcases hclaim x with he | ⟨-, hl⟩
    swap
    · exact .inl hl
    rw [he]
    rcases h.served x with hl | hserved
    · rcases (hs.looking h.control x).1 hl with hl | hf | hp
      · exact .inl hl
      · -- the flag was clear, so a full pass has begun after every request
        have hall : p.asked ≤ p.begun := by
          by_contra hlt
          exact absurd (h.flag.mpr (Nat.lt_of_not_le hlt)) (by rw [hf]; decide)
        exact .inr (((h.atClaim x).trans hall).trans hle)
      · rw [hpass x hp]
        exact .inr (h.atClaim x)
    · exact .inr (hserved.trans hle)
  · intro hm
    have hre : ∀ x, p.m.polls e ≠ some (x, .rearm) := by
      intro x hx
      simp only [Polling.after, hx] at hm
      exact absurd hm Bool.false_ne_true
    refine (h.masked ?_).step h.control hs hre
    simp only [Polling.after] at hm
    exact hm

theorem Counted.boot {g : Globals} (hc : Control (Sched.boot g)) (hf : g.pollRequested = false) :
    Counted (.boot g) where
  control := hc
  begun := Nat.le_refl 0
  flag := ⟨fun h => absurd (hf.symm.trans h) Bool.false_ne_true, fun h => absurd h (Nat.lt_irrefl 0)⟩
  atClaim _ := Nat.le_refl 0
  served _ := .inr (Nat.le_refl 0)
  masked h := absurd h Bool.false_ne_true
  ran x c hx := by
    cases x with
    | thread =>
      obtain rfl := Option.some.inj hx
      exact .of_idle _
    | irq => exact nomatch hx

/-- **The requests are served.** -/
structure Served (cfg : Config) (s : Polling) : Prop where
  /-- The flag is set exactly while no full pass has begun after the last request. -/
  pending : s.m.g.pollRequested = true ↔ s.begun < s.asked
  /-- A poll that got the claim has every request made before its claim behind the beginning of a full
  pass, once it has found the flag clear or has cleared it. -/
  passes : ∀ x, s.m.looking x = true ∨ s.atClaim x ≤ s.begun
  /-- It goes on in the order of its code, whatever comes next: from the store that clears the flag to
  the lines, the timers and the scheduler. -/
  goesOn : ∀ e u x c pc rest, Step cfg s.m e u → s.m.ctx x = some c → pc.granted = true →
    .poll pc :: rest <:+ c.frames →
    (∃ d, u.ctx x = some d ∧ StaysOn pc rest d.frames) ∨
      pc = .rearm ∧ s.m.polls e = some (x, .rearm)
  /-- A full pass calls `mm_halow_sched_run`: from the call on it is at its entry, or was turned away
  there or entered, and one of these it was when the poll releases the claim. -/
  calls : ∀ x c, s.m.ctx x = some c → Ran c (s.sched x)
  /-- Its `mm_halow_sched_run` is turned away only where thread context is inside it. -/
  runs : ∀ x c rest, s.m.ctx x = some c → c.body = none →
    c.frames = .run .check :: .poll .inRun :: rest → (x = .thread → s.m.pendsv = none) →
    s.m.g.running = true ∨ s.m.g.cur ≠ none → s.m.thread.body ≠ none
  /-- The pin interrupt is masked for a request, or until a poll unmasks it. -/
  masked : s.masked = true → Unmasked s

variable {now : Nat} {mutex : Nat → Mutex} {sem : Nat → Sem} {semb : Nat → Bool}
  {queue : Nat → Queue} {tr : List PollingEvent}

/-- **What an event does.** -/
theorem Polling.Step.cases {e : PollingEvent} (h : Polling.Step cfg p e q) :
    (∃ m, Sched.Step cfg p.m (.isr .requestPoll) m ∧ q = { p with m := m, masked := true }) ∨
      ∃ e' m, Sched.Step cfg p.m e' m ∧ q = p.after e' m := by
  unfold Polling.Step Polling.next at h
  cases e with
  | pin =>
    obtain ⟨m, hm, rfl⟩ := Option.map_eq_some_iff.mp h
    exact .inl ⟨m, hm, rfl⟩
  | step e =>
    obtain ⟨m, hm, rfl⟩ := Option.map_eq_some_iff.mp h
    exact .inr ⟨e, m, hm, rfl⟩

/-- Code makes a call of `mm_halow_sched_run` of its own. -/
def PollingEvent.callsRun : PollingEvent → Bool
  | .pin => false
  | .step e => e.callsRun

/-- Runs of the scheduler are made under claims: the poll and the yields make them and nothing else
does, and claims nest, fewer than 256 at once. -/
structure UnderClaims (cfg : Config) (s₀ : Polling) (tr : List PollingEvent) : Prop where
  nested : ∀ tr₁ u, tr₁ <+: tr → Run (Polling.Step cfg) s₀ tr₁ u →
    Nested u.m ∧ openClaims .thread u.m + openClaims .irq u.m < 256
  runs : ∀ e ∈ tr, e.callsRun = false

/-- What holds of the claims and of the runs made under them. -/
structure Entered (s : Polling) : Prop where
  control : Control s.m
  claims : Claims s.m
  serve : ∀ x c, s.m.ctx x = some c → RunsServe c
  entered : ∀ x n, s.sched x n ≠ .away

theorem Entered.boot : Entered (.boot (bootGlobals now mutex sem semb queue)) where
  control := Control.boot
  claims := Claims.boot
  serve x c hx := by
    cases x with
    | thread =>
      obtain rfl := Option.some.inj hx
      exact .of_idle
    | irq => exact nomatch hx
  entered x n := Entry.noConfusion

/-- **Where runs are made under claims, one step turns no full pass away.** -/
theorem Entered.step {e : PollingEvent} (h : Entered p) (hn : Nested p.m)
    (hlt : openClaims .thread q.m + openClaims .irq q.m < 256) (hrun : e.callsRun = false)
    (hs : Polling.Step cfg p e q) : Entered q := by
  unfold Polling.Step Polling.next at hs
  cases e with
  | pin =>
    obtain ⟨m, hm, rfl⟩ := Option.map_eq_some_iff.mp hs
    exact ⟨h.control.step hm, h.claims.step h.control hn hm hlt,
      Step.runsServe (u := m) hm rfl h.serve, h.entered⟩
  | step e =>
    obtain ⟨m, hm, rfl⟩ := Option.map_eq_some_iff.mp hs
    refine ⟨h.control.step hm, h.claims.step h.control hn hm hlt,
      Step.runsServe (u := m) hm hrun h.serve, fun x n => ?_⟩
    have htold := Step.not_away hm h.control h.claims h.serve x
    show entryAfter (p.m.ctx x) (m.ctx x) (p.sched x) n ≠ .away
    unfold entryAfter
    split
    · next i e ht =>
      split_ifs
      · rintro rfl
        exact htold i ht
      · exact h.entered x n
    · exact h.entered x n

/-- **Poll requests are never lost**, in every run; and where runs are made under claims, no full pass
is turned away from `mm_halow_sched_run`. -/
theorem requests_served
    (h : Run (Polling.Step cfg) (.boot (bootGlobals now mutex sem semb queue)) tr p) :
    Served cfg p ∧ (UnderClaims cfg (.boot (bootGlobals now mutex sem semb queue)) tr →
      ∀ x n, p.sched x n ≠ .away) := by
  have hcount : Counted p := by
    refine h.inv (Counted.boot Control.boot rfl) fun p e q hp hs => ?_
    rcases hs.cases with ⟨m, hm, rfl⟩ | ⟨e', m, hm, rfl⟩
    · exact hp.pin hm
    · exact hp.step hm
  constructor
  · constructor
    · exact hcount.flag
    · exact hcount.served
    · exact fun e u x c pc rest hs hx hpc hl => hs.polls hcount.control hx hpc hl
    · exact hcount.ran
    · exact fun x c rest hx hb _ hthread hr => hcount.control.turned_away hx hb hthread hr
    · exact hcount.masked
  · intro hclaims
    suffices hent : Entered p from hent.entered
    refine h.inv_trace (I := fun tr' v => tr' <+: tr → Entered v) (fun _ => .boot) ?_
      (List.prefix_refl tr)
    intro tr' v e w hv hi hs hpre
    have hpre' : tr' <+: tr := (List.prefix_append _ _).trans hpre
    exact (hi hpre').step (hclaims.nested tr' v hpre' hv).1 (hclaims.nested _ w hpre (hv.snoc hs)).2
      (hclaims.runs e (hpre.subset (List.mem_append_right _ List.mem_cons_self))) hs

/-- The pin interrupt fires, and thread context polls, up to where it has released the claim. -/
def pinPolled : List PollingEvent :=
  [.pin, .step (.isrStep go), .step (.isrStep go), .step (.thread (calling .poll))] ++
    List.replicate 20 (.step (.thread go))

/-- The machine at boot. -/
def pollingBare : Polling := ⟨bootBare, false, 0, 0, fun _ => 0, fun _ _ => .due⟩

/-- One request was made and one full pass has begun after it; the claim is free, and the poll has
still to unmask the pin interrupt. -/
def stillMasked (s : Polling) : Bool :=
  s.masked && s.asked = 1 && s.begun = 1 && !s.m.g.pollRequested &&
    s.m.thread.frames = [.poll .rearm] && s.m.pendsv.isNone

theorem requests_served_pin : ∃ s, Run (Polling.Step .defaults) pollingBare pinPolled s ∧
    stillMasked s = true ∧ s.sched .thread 0 = .entered ∧ Served .defaults s ∧
    ∀ x n, s.sched x n ≠ .away := by
  obtain ⟨s, hs, hp⟩ : ∃ s, Run (Polling.Step .defaults) pollingBare pinPolled s ∧
      (stillMasked s && decide (s.sched .thread 0 = .entered)) = true :=
    Run.ofFold_any (fun _ _ _ h => h) (by rfl)
  obtain ⟨hmasked, hentered⟩ := Bool.and_eq_true_iff.mp hp
  obtain ⟨hserved, haway⟩ := requests_served hs
  refine ⟨s, hs, hmasked, of_decide_eq_true hentered, hserved, haway ⟨fun tr₁ u hpre hu => ?_, ?_⟩⟩
  · have hall : passes (Polling.next .defaults)
        (fun s => Nested s.m ∧ openClaims .thread s.m + openClaims .irq s.m < 256) pollingBare
          pinPolled = true := by rfl
    have := Run.of_passes (fun _ _ _ h => h) hall hpre hu
    exact of_decide_eq_true this
  · decide

/-- The pin interrupt is masked, no request is pending, and no poll holds the claim: the one that will
unmask it has released it. -/
theorem masked_released : ¬ ∀ (cfg : Config) (now : Nat) (mutex : Nat → Mutex) (sem : Nat → Sem)
    (semb : Nat → Bool) (queue : Nat → Queue) (tr : List PollingEvent) (s : Polling),
    Run (Polling.Step cfg) (.boot (bootGlobals now mutex sem semb queue)) tr s → s.masked = true →
    s.m.g.pollRequested = true ∨ s.m.has fun f => f.pollPc.isSome && decide (0 < f.holds) := by
  intro h
  obtain ⟨s, hs, hp⟩ : ∃ s, Run (Polling.Step .defaults) pollingBare pinPolled s ∧
      stillMasked s = true := Run.ofFold_any (fun _ _ _ h => h) (by rfl)
  simp only [stillMasked, Bool.and_eq_true, Bool.not_eq_true', decide_eq_true_eq,
    Option.isNone_iff_eq_none] at hp
  obtain ⟨⟨⟨⟨⟨hmasked, -⟩, -⟩, hflag⟩, hframes⟩, hpendsv⟩ := hp
  rcases h _ _ _ _ _ _ _ s hs hmasked with hf | ⟨x, c, hx, f, hf, hholds⟩
  · exact absurd (hflag.symm.trans hf) Bool.false_ne_true
  · cases x with
    | thread =>
      obtain rfl := Option.some.inj hx
      rw [hframes, List.mem_singleton] at hf
      rw [hf] at hholds
      exact absurd hholds (by decide)
    | irq => exact absurd (hpendsv.symm.trans hx) (Option.some_ne_none c).symm

end MmHalow.Sched
