import MmHalow.Ctrl.Teardown
import MmHalow.Sched.IdlePass

/-!
# One poll, told three times (`mm_halow_poll_func`)

`Sched.pollStep` makes the poll step by step, with what the interrupt lines and the timers say as
answers from outside; `Hal.pollFunc` is the poll as the lines see it, and `Ctrl.pollFunc` the poll of
PendSV with all that it serves. Here the last is a run of the first, and agrees with the second.

* `Leads`: a context gets there by steps of its own, with nothing cutting in.
* `poll_leads`: **PendSV's steps from the call of the poll lead where `Ctrl.pollFunc` says**: back to the
  caller, to the handlers, to the timers, or to the turn of the task that it names.
* `poll_hal`: what `Ctrl.pollFunc` does to the lines is what `Hal.pollFunc` says.
-/

namespace MmHalow.Ctrl

open MmHalow.Lib MmHalow.Lib.Clock MmHalow.Osal MmHalow.Sched

/-! ## Steps of a context by itself -/

section Leads

variable {cfg : Sched.Config} {x : Ctx} {g g' : Globals} {fr : List Frame} {p q r : Globals × Option Context}

/-- A context gets from `p` to `q` with nothing cutting in. -/
def Leads (cfg : Sched.Config) (x : Ctx) (p q : Globals × Option Context) : Prop :=
  ∃ os, loneSteps cfg x p os = q

theorem Leads.refl (p : Globals × Option Context) : Leads cfg x p p := ⟨[], rfl⟩

theorem Leads.trans (h : Leads cfg x p q) (h' : Leads cfg x q r) : Leads cfg x p r := by
  obtain ⟨os, rfl⟩ := h
  obtain ⟨os', rfl⟩ := h'
  exact ⟨os ++ os', loneSteps_append p os os'⟩

theorem Leads.step (o : Choice) (h : Leads cfg x (loneStep cfg x p o) q) : Leads cfg x p q :=
  Leads.trans ⟨[o], rfl⟩ h

/-- A step of `mm_halow_sched_run` after so many milliseconds. -/
theorem Leads.body (ms : Nat) {pc : RunPc} (g' : Globals) (b : Option Body) (hpc : ∀ pass t, pc ≠ .inTurn pass t)
    (hstep : bodyStep cfg (advance ms g) pc = (g', b)) (h : Leads cfg x (g', some ⟨fr, b⟩) q) :
    Leads cfg x (g, some ⟨fr, some ⟨pc, []⟩⟩) q := by
  refine .step { go with dt := ms } ?_
  rw [loneStep_body hpc]
  show Leads cfg x ((bodyStep cfg (advance ms g) pc).1, some ⟨fr, (bodyStep cfg (advance ms g) pc).2⟩) q
  rw [hstep]
  exact h

/-- **The walk** goes by the tasks that are not ready. -/
theorem leads_walk {pass : Nat} {l₁ l₂ : List TaskId} (hl : g.taskList = l₁ ++ l₂)
    (hnodup : (l₁ ++ l₂).Nodup) :
    Leads cfg x (g, some ⟨fr, some ⟨.walk pass l₂.head?, []⟩⟩)
      (g, some ⟨fr, some ⟨match l₂.find? (isReady g) with
        | some t => .setCur pass t
        | none => .walk pass none, []⟩⟩) := by
  induction l₂ generalizing l₁ with
  | nil => exact .refl _
  | cons t l₂ ih =>
    by_cases hr : (g.task t).state = .ready
    · have hready : isReady g t = true := decide_eq_true hr
      rw [List.find?_cons_of_pos hready]
      refine .body 0 g (some ⟨.setCur pass t, []⟩) nofun ?_ (.refl _)
      show (advance 0 g, _) = _
      simp [advance, hr]
    · have ht : t ∉ l₁ := fun hm => (List.nodup_append.mp hnodup).2.2 t hm t List.mem_cons_self rfl
      have hnext : nextTask g.taskList t = l₂.head? := by
        rw [hl]
        exact nextTask_append ht
      have hready : ¬ isReady g t = true := fun h => hr (of_decide_eq_true h)
      rw [List.find?_cons_of_neg hready]
      have hl' : g.taskList = l₁ ++ [t] ++ l₂ := hl.trans (List.append_cons ..)
      refine .body 0 g (some ⟨.walk pass l₂.head?, []⟩) nofun ?_
        (ih hl' (by rwa [← List.append_cons]))
      show (advance 0 g, _) = _
      simp [advance, hr, hnext]

/-- The globals without what `Machine` alone records, and without the request, which stands with the
lines here. -/
def bare (g : Globals) : Globals :=
  { g with pollRequested := false, polledAt := 0, passAt := 0, passed := false }

theorem runPasses_bare (n : Nat) (reads : List (Nat × Bool)) (g : Globals) :
    runPasses n reads (bare g) = Prod.map bare id (runPasses n reads g) := by
  induction n generalizing reads g with
  | zero => rfl
  | succ n ih =>
    unfold runPasses
    dsimp only
    have hexp : passExpired { bare g with now := (bare g).now + (reads.headD (0, false)).1 } =
        passExpired { g with now := g.now + (reads.headD (0, false)).1 } := rfl
    have hbegin : beginPass { bare g with now := (bare g).now + (reads.headD (0, false)).1 } =
        bare (beginPass { g with now := g.now + (reads.headD (0, false)).1 }) := rfl
    rw [hexp, hbegin]
    generalize beginPass { g with now := g.now + (reads.headD (0, false)).1 } = g₁
    have hfind : (bare g₁).taskList.find? (isReady (bare g₁)) = g₁.taskList.find? (isReady g₁) := rfl
    rw [hfind]
    split_ifs with hover hwake
    · rfl
    · cases g₁.taskList.find? (isReady g₁) with
      | some t => rfl
      | none => exact ih reads.tail (wake g₁)
    · cases g₁.taskList.find? (isReady g₁) with
      | some t => rfl
      | none => rfl

/-- What `schedRun` does not depend on. -/
theorem schedRun_bare (cfg : Sched.Config) (reads : List (Nat × Bool)) (g : Globals) :
    schedRun cfg reads (bare g) = Prod.map bare id (schedRun cfg reads g) := by
  have henters : { bare g with running := true, deadline := ticks (bare g) + cfg.budgetMs } =
      bare { g with running := true, deadline := ticks g + cfg.budgetMs } := rfl
  unfold schedRun
  by_cases hin : g.running = true ∨ g.cur ≠ none
  · have hin' : (bare g).running = true ∨ (bare g).cur ≠ none := hin
    rw [if_pos hin, if_pos hin']
    rfl
  · have hin' : ¬ ((bare g).running = true ∨ (bare g).cur ≠ none) := hin
    rw [if_neg hin, if_neg hin', henters]
    generalize { g with running := true, deadline := ticks g + cfg.budgetMs } = g₁
    rw [runPasses_bare]
    cases h : (runPasses cfg.passes reads g₁).2 with
    | some t => simp [h]
    | none =>
      simp only [Prod.map_snd, h, id_eq]
      rfl

theorem schedRun_congr (cfg : Sched.Config) (reads : List (Nat × Bool)) (h : bare g = bare g') :
    bare (schedRun cfg reads g).1 = bare (schedRun cfg reads g').1 ∧
      (schedRun cfg reads g).2 = (schedRun cfg reads g').2 := by
  have hsame : Prod.map bare id (schedRun cfg reads g) = Prod.map bare id (schedRun cfg reads g') := by
    rw [← schedRun_bare, ← schedRun_bare, h]
  exact Prod.ext_iff.mp hsame

/-- The end of `mm_halow_sched_run`. -/
theorem leads_reap : Leads cfg x (g, some ⟨fr, some ⟨.reap, []⟩⟩)
    ({ reap g with running := false }, some ⟨fr, none⟩) :=
  .body 0 _ _ nofun rfl (.body 0 _ _ nofun rfl (.refl _))

/-- Where `mm_halow_sched_run` stands when it resumes a task, and when it is over. -/
def runAt (fr : List Frame) : Option TaskId → Context
  | some t => ⟨fr, some ⟨.setCur 0 t, []⟩⟩
  | none => ⟨fr, none⟩

/-- **The passes**, where no interrupt wakes in them: there is one at most. -/
theorem leads_passes {reads : List (Nat × Bool)} (hnodup : g.taskList.Nodup)
    (hwake : ∀ r ∈ reads, r.2 = false) :
    ∃ g', bare g' = bare (runPasses cfg.passes reads g).1 ∧
      Leads cfg x (g, some ⟨fr, some ⟨.passTest 0, []⟩⟩) (g', some ⟨fr, some ⟨
        match (runPasses cfg.passes reads g).2 with
        | some t => .setCur 0 t
        | none => .reap, []⟩⟩) := by
  have hquiet : (reads.headD (0, false)).2 = false := by
    cases reads with
    | nil => rfl
    | cons r reads => exact hwake r List.mem_cons_self
  have htest : ∀ pass t, RunPc.passTest 0 ≠ .inTurn pass t := fun _ _ => RunPc.noConfusion
  cases hpasses : cfg.passes with
  | zero =>
    refine ⟨g, rfl, .body 0 g (some ⟨.reap, []⟩) htest ?_ (.refl _)⟩
    simp [bodyStep, hpasses, advance]
  | succ n =>
    obtain ⟨ms, hms⟩ : ∃ ms, (reads.headD (0, false)).1 = ms := ⟨_, rfl⟩
    unfold runPasses
    dsimp only
    rw [hms, hquiet]
    by_cases hexp : passExpired { g with now := g.now + ms } = true
    · rw [if_pos hexp]
      refine ⟨_, rfl, .body ms { g with now := g.now + ms } (some ⟨.reap, []⟩) htest ?_ (.refl _)⟩
      simp [bodyStep, advance, hexp]
    · rw [if_neg hexp]
      have hexp : passExpired { g with now := g.now + ms } = false := Bool.eq_false_of_not_eq_true hexp
      obtain ⟨g₃, hg₃⟩ : ∃ g₃, beginPass { g with now := g.now + ms } = g₃ := ⟨_, rfl⟩
      -- the pass begins, and the walk goes to the first task that is ready
      have hbegins : ∃ g', bare g' = bare g₃ ∧ g'.taskList = g.taskList ∧
          (∀ t, isReady g' t = isReady g₃ t) ∧
          Leads cfg x (g, some ⟨fr, some ⟨.passTest 0, []⟩⟩)
            (g', some ⟨fr, some ⟨.walk 0 g.taskList.head?, []⟩⟩) := by
        refine ⟨{ g₃ with passAt := g.now + ms, polledAt := g.now + ms, passed := true }, rfl, ?_, ?_, ?_⟩
        · rw [← hg₃]
          rfl
        · exact fun t => rfl
        · refine .body ms { g with now := g.now + ms } (some ⟨.clearWoken 0, []⟩) htest ?_ ?_
          · simp [bodyStep, advance, hexp, hpasses]
          · rw [← hg₃]
            exact .body 0 _ _ (fun _ _ => RunPc.noConfusion) rfl
              (.body 0 _ _ (fun _ _ => RunPc.noConfusion) rfl (.refl _))
      obtain ⟨g', hbare, hlist, hready, hleads⟩ := hbegins
      have hwalk : Leads cfg x (g', some ⟨fr, some ⟨.walk 0 g.taskList.head?, []⟩⟩)
          (g', some ⟨fr, some ⟨match g.taskList.find? (isReady g') with
            | some t => .setCur 0 t
            | none => .walk 0 none, []⟩⟩) := leads_walk (hlist.trans (List.nil_append _).symm) hnodup
      have hfind : g₃.taskList.find? (isReady g₃) = g.taskList.find? (isReady g') := by
        rw [show isReady g' = isReady g₃ from funext hready, ← hg₃]
        rfl
      rw [hg₃, hfind]
      cases hf : g.taskList.find? (isReady g') with
      | some t =>
        rw [hf] at hwalk
        exact ⟨g', hbare, hleads.trans hwalk⟩
      | none =>
        rw [hf] at hwalk
        refine ⟨g', hbare, (hleads.trans hwalk).trans ?_⟩
        have hwoken : g'.woken = false := (congrArg Globals.woken hbare).trans (by rw [← hg₃]; rfl)
        refine .body 0 _ _ (fun _ _ => RunPc.noConfusion) rfl
          (.body 0 g' (some ⟨.reap, []⟩) (fun _ _ => RunPc.noConfusion) ?_ (.refl _))
        show (g', some (Body.mk (if g'.woken = true then _ else _) [])) = _
        rw [hwoken]
        rfl

theorem bare_reap {g g' : Globals} (h : bare g' = bare g) :
    bare { reap g' with running := false } = bare { reap g with running := false } := by
  have hreap : ∀ g, bare { reap g with running := false } = bare { reap (bare g) with running := false } :=
    fun _ => rfl
  rw [hreap, h, ← hreap]

/-- **`mm_halow_sched_run`**, called by a poll, comes to the task that `schedRun` names, or back. -/
theorem leads_run {reads : List (Nat × Bool)} {rest : List Frame} (hnodup : g.taskList.Nodup)
    (hwake : ∀ r ∈ reads, r.2 = false) :
    ∃ g', bare g' = bare (schedRun cfg reads g).1 ∧
      Leads cfg x (g, some ⟨.run .check :: .poll .inRun :: rest, none⟩)
        (g', some (runAt (.poll .inRun :: rest) (schedRun cfg reads g).2)) := by
  unfold schedRun
  by_cases hin : g.running = true ∨ g.cur ≠ none
  · rw [if_pos hin]
    refine ⟨g, rfl, .step go ?_⟩
    have hback : loneStep cfg x (g, some ⟨.run .check :: .poll .inRun :: rest, none⟩) go =
        (g, some ⟨.poll .inRun :: rest, none⟩) := by
      simp [loneStep, Context.step, stackStep, frameStep, runEntryStep, Move.onto, advance, hin, returnTo,
        resumeWith, go]
    rw [hback]
    exact .refl _
  · rw [if_neg hin]
    obtain ⟨hrun, hcur⟩ := not_or.mp hin
    have henters : Leads cfg x (g, some ⟨.run .check :: .poll .inRun :: rest, none⟩)
        ({ g with running := true, deadline := ticks g + cfg.budgetMs },
          some ⟨.poll .inRun :: rest, some ⟨.passTest 0, []⟩⟩) :=
      ⟨[go, go, go], run_enters (Bool.eq_false_of_not_eq_true hrun) (not_not.mp hcur) rfl⟩
    dsimp only
    generalize hg : { g with running := true, deadline := ticks g + cfg.budgetMs } = g₁ at henters ⊢
    have hnodup₁ : g₁.taskList.Nodup := by
      rw [← hg]
      exact hnodup
    obtain ⟨g', hbare, hpasses⟩ := leads_passes hnodup₁ hwake
    cases hr : (runPasses cfg.passes reads g₁).2 with
    | some t =>
      rw [hr] at hpasses
      exact ⟨g', hbare, henters.trans hpasses⟩
    | none =>
      rw [hr] at hpasses
      exact ⟨_, bare_reap hbare, (henters.trans hpasses).trans leads_reap⟩

/-- A step of the poll. -/
theorem Leads.poll (o : Choice) {pc pc' : PollPc}
    (hstep : pollStep x o (advance o.dt g) pc = (g', .goto (.poll pc')))
    (h : Leads cfg x (g', some ⟨.poll pc' :: fr, none⟩) q) : Leads cfg x (g, some ⟨.poll pc :: fr, none⟩) q := by
  refine .step o ?_
  have hlone : loneStep cfg x (g, some ⟨.poll pc :: fr, none⟩) o = (g', some ⟨.poll pc' :: fr, none⟩) := by
    simp only [loneStep, Context.step, stackStep, frameStep, hstep, Move.onto]
  rw [hlone]
  exact h

/-- The poll returns. -/
theorem leads_ret (o : Choice) {pc : PollPc}
    (hstep : pollStep x o (advance o.dt g) pc = (g', .ret true)) :
    Leads cfg x (g, some ⟨[.poll pc], none⟩) (g', some ⟨[], none⟩) := by
  refine .step o ?_
  have hlone : loneStep cfg x (g, some ⟨[.poll pc], none⟩) o = (g', some ⟨[], none⟩) := by
    simp only [loneStep, Context.step, stackStep, frameStep, hstep, Move.onto, returnTo]
  rw [hlone]
  exact .refl _

theorem bare_release {g g' : Globals} (h : bare g' = bare g) : bare (release g') = bare (release g) := by
  have hrelease : ∀ g, bare (release g) = release (bare g) := by
    intro g
    unfold release bare
    split_ifs <;> rfl
  rw [hrelease, h, ← hrelease]

/-- The poll gives the claim back, re-arms the pin interrupt and returns. -/
theorem leads_release {pc : PollPc} (hpc : pc = .quietRelease ∨ pc = .release) :
    Leads cfg x (g, some ⟨[.poll pc], none⟩) (release g, some ⟨[], none⟩) := by
  rcases hpc with rfl | rfl
  · exact .poll go rfl (leads_ret go rfl)
  · exact .poll go rfl (leads_ret go rfl)

end Leads

/-! ## The poll of PendSV -/

section Polls

variable {H : Type} {cfg : PollConfig} {o : Reads} {d : Serviced H} {g : Globals}

/-- The globals, with the request that stands in the lines' state or comes in time. -/
def Serviced.requested (o : Reads) (d : Serviced H) (g : Globals) : Globals :=
  { g with pollRequested := d.hal.pollRequested || o.requested }

/-- Where PendSV stands when the poll comes to code of morselib, and when it has returned. -/
def pollAt : Option (Ran H) → Context
  | none => ⟨[], none⟩
  | some (.handler _ _) => ⟨[.poll .irqs], none⟩
  | some (.timer _) => ⟨[.poll .timers], none⟩
  | some (.task t) => ⟨[.poll .inRun], some ⟨.setCur 0 t, []⟩⟩

theorem bare_advance {g g' : Globals} (ms : Nat) (h : bare g' = bare g) :
    bare (advance ms g') = bare (advance ms g) := by
  have hadvance : ∀ g, bare (advance ms g) = advance ms (bare g) := fun _ => rfl
  rw [hadvance, h, ← hadvance]

/-- The tasks of a full pass. -/
theorem leads_runTasks (hnodup : d.g.taskList.Nodup) (hwake : ∀ r ∈ o.passes, r.2 = false)
    (hg : bare g = bare d.g) :
    ∃ g', bare g' = bare (runTasks cfg o d).1.g ∧
      Leads cfg.sched .irq (g, some ⟨[.run .check, .poll .inRun], none⟩)
        (g', some (pollAt (runTasks cfg o d).2)) := by
  have hlist : g.taskList.Nodup := by
    have hsame : (bare g).taskList = (bare d.g).taskList := congrArg Globals.taskList hg
    exact hsame ▸ hnodup
  obtain ⟨g', hbare, hleads⟩ := leads_run hlist hwake
  obtain ⟨hfst, hsnd⟩ := schedRun_congr cfg.sched o.passes hg
  unfold runTasks
  dsimp only
  rw [hsnd] at hleads
  cases h : (schedRun cfg.sched o.passes d.g).2 with
  | some t =>
    rw [h] at hleads
    exact ⟨g', hbare.trans hfst, hleads⟩
  | none =>
    rw [h] at hleads
    refine ⟨release g', bare_release (hbare.trans hfst), hleads.trans ?_⟩
    exact .poll go rfl (leads_release (.inr rfl))

/-- **The full pass.** -/
theorem leads_fullPass (hnodup : d.g.taskList.Nodup) (hwake : ∀ r ∈ o.passes, r.2 = false)
    (hg : bare g = bare d.g) :
    ∃ g', bare g' = bare (fullPass cfg o d).1.g ∧ Leads cfg.sched .irq (g, some ⟨[.poll .irqs], none⟩)
      (g', some (pollAt (fullPass cfg o d).2)) := by
  unfold fullPass
  dsimp only
  cases Hal.pollIrqs cfg.hal o.irqPins { d.hal with pollRequested := false } with
  | cons c cs => exact ⟨g, hg, .refl _⟩
  | nil =>
    have htimers : Leads cfg.sched .irq (g, some ⟨[.poll .irqs], none⟩)
        (advance o.timersAfter g, some ⟨[.poll .timers], none⟩) :=
      .poll { go with dt := o.timersAfter } rfl (.refl _)
    generalize hd : Serviced.after o.timersAfter { d with hal := { d.hal with pollRequested := false } } = d₁
    have hg₁ : bare (advance o.timersAfter g) = bare d₁.g := by
      rw [← hd]
      exact bare_advance o.timersAfter hg
    dsimp only
    cases d₁.timers.find? (timerDue (ticks d₁.g)) with
    | some t => exact ⟨_, hg₁, htimers⟩
    | none =>
      have hcalls : Leads cfg.sched .irq (advance o.timersAfter g, some ⟨[.poll .timers], none⟩)
          (advance o.runAfter (advance o.timersAfter g), some ⟨[.run .check, .poll .inRun], none⟩) :=
        .poll { go with dt := o.runAfter } rfl (.step go (.refl _))
      have hnodup₁ : (d₁.after o.runAfter).g.taskList.Nodup := by
        rw [← hd]
        exact hnodup
      obtain ⟨g', hbare, hleads⟩ := leads_runTasks hnodup₁ hwake (bare_advance o.runAfter hg₁)
      exact ⟨g', hbare, (htimers.trans hcalls).trans hleads⟩

/-- The poll begins a full pass. -/
theorem leads_request (hnodup : d.g.taskList.Nodup) (hwake : ∀ r ∈ o.passes, r.2 = false)
    (hg : bare g = bare d.g) :
    ∃ g', bare g' = bare (fullPass cfg o d).1.g ∧ Leads cfg.sched .irq (g, some ⟨[.poll .request], none⟩)
      (g', some (pollAt (fullPass cfg o d).2)) := by
  obtain ⟨g', hbare, hleads⟩ := leads_fullPass (g := { g with pollRequested := false }) hnodup hwake hg
  exact ⟨g', hbare, .poll go rfl hleads⟩

/-- What the poll does once it has the claim. -/
def Serviced.goesOn (cfg : PollConfig) (o : Reads) (d : Serviced H) : Serviced H × Option (Ran H) :=
  let w := findsWork cfg o d
  if w.1 = false then ({ w.2 with g := release w.2.g }, none) else fullPass cfg o w.2

/-- **The tests for work**, and what follows. -/
theorem leads_goesOn (hnodup : d.g.taskList.Nodup) (hwake : ∀ r ∈ o.passes, r.2 = false) {m : Choice}
    (hirq : m.irqPending = (Hal.irqPending cfg.hal o.pendingPins d.hal).1)
    (htimer : m.timerPending = timerPending (ticks d.g) d.timers) (hdt : m.dt = 0) :
    ∃ g', bare g' = bare (d.goesOn cfg o).1.g ∧
      Leads cfg.sched .irq (d.requested o d.g, some ⟨[.poll .requested], none⟩)
        (g', some (pollAt (d.goesOn cfg o).2)) := by
  have hstill : advance m.dt (d.requested o d.g) = d.requested o d.g := by
    rw [hdt]
    rfl
  have hpending : pending (d.requested o d.g) = pending d.g := rfl
  unfold Serviced.goesOn findsWork
  dsimp only
  by_cases hreq : (d.hal.pollRequested || o.requested) = true
  · rw [if_pos hreq, if_neg Bool.noConfusion]
    obtain ⟨g', hbare, hleads⟩ := leads_request (g := d.requested o d.g) hnodup hwake rfl
    refine ⟨g', hbare, .poll m ?_ hleads⟩
    simp only [pollStep, hstill]
    rw [if_pos (show (d.requested o d.g).pollRequested = true from hreq)]
  rw [if_neg hreq]
  generalize hr : Hal.irqPending cfg.hal o.pendingPins d.hal = r at hirq ⊢
  -- a test that finds work leads to the full pass
  have hfull : ∀ {pc}, Leads cfg.sched .irq (d.requested o d.g, some ⟨[.poll .requested], none⟩)
      (d.requested o d.g, some ⟨[.poll pc], none⟩) →
      pollStep .irq m (d.requested o d.g) pc = (d.requested o d.g, .goto (.poll .request)) →
      ∃ g', bare g' = bare (fullPass cfg o { d with hal := r.2 }).1.g ∧
        Leads cfg.sched .irq (d.requested o d.g, some ⟨[.poll .requested], none⟩)
          (g', some (pollAt (fullPass cfg o { d with hal := r.2 }).2)) := by
    intro pc hto hstep
    obtain ⟨g', hbare, hleads⟩ := leads_request (d := { d with hal := r.2 }) (g := d.requested o d.g) hnodup
      hwake rfl
    refine ⟨g', hbare, hto.trans (.poll m ?_ hleads)⟩
    rw [hstill]
    exact hstep
  have hirqs : Leads cfg.sched .irq (d.requested o d.g, some ⟨[.poll .requested], none⟩)
      (d.requested o d.g, some ⟨[.poll .irqPending], none⟩) := by
    refine .poll m ?_ (.refl _)
    simp only [pollStep, hstill]
    rw [if_neg (show ¬ (d.requested o d.g).pollRequested = true from hreq)]
  by_cases hi : r.1 = true
  · simp only [hi, Bool.true_or, Bool.true_eq_false, if_false]
    exact hfull hirqs (by simp only [pollStep, hirq, hi, if_true])
  have htimers : Leads cfg.sched .irq (d.requested o d.g, some ⟨[.poll .requested], none⟩)
      (d.requested o d.g, some ⟨[.poll .timerPending], none⟩) := by
    refine hirqs.trans (.poll m ?_ (.refl _))
    simp only [pollStep, hstill, hirq, hi, Bool.false_eq_true, if_false]
  by_cases ht : timerPending (ticks d.g) d.timers = true
  · simp only [ht, Bool.true_or, Bool.or_true, Bool.true_eq_false, if_false]
    exact hfull htimers (by simp only [pollStep, htimer, ht, if_true])
  have hsched : Leads cfg.sched .irq (d.requested o d.g, some ⟨[.poll .requested], none⟩)
      (d.requested o d.g, some ⟨[.poll .schedPending], none⟩) := by
    refine htimers.trans (.poll m ?_ (.refl _))
    simp only [pollStep, hstill, htimer, ht, Bool.false_eq_true, if_false]
  by_cases hp : pending d.g = true
  · simp only [hp, Bool.or_true, Bool.true_eq_false, if_false]
    exact hfull hsched (by simp only [pollStep, hpending, hp, if_true])
  have hnone : (r.1 || timerPending (ticks d.g) d.timers || pending d.g) = false := by
    rw [Bool.eq_false_of_not_eq_true hi, Bool.eq_false_of_not_eq_true ht, Bool.eq_false_of_not_eq_true hp]
    rfl
  rw [if_pos hnone]
  have hquiet : bare { d.requested o d.g with polledAt := (d.requested o d.g).now } = bare d.g := rfl
  refine ⟨_, bare_release hquiet, hsched.trans (.poll m ?_ (leads_release (.inl rfl)))⟩
  simp only [pollStep, hstill, hpending, hp, Bool.false_eq_true, if_false]

/-- **The poll of PendSV is a run of `Machine`** where nothing cuts in: it comes to the code of morselib
that `pollFunc` names, or returns. -/
theorem poll_leads (hnodup : d.g.taskList.Nodup) (hwake : ∀ r ∈ o.passes, r.2 = false) :
    ∃ g', bare g' = bare (pollFunc cfg o d).1.g ∧
      Leads cfg.sched .irq (d.requested o d.g, some ⟨[.poll .initted], none⟩)
        (g', some (pollAt (pollFunc cfg o d).2)) := by
  have hflag : bare (d.requested o d.g) = bare d.g := rfl
  unfold pollFunc
  by_cases hinit : d.initted = false
  · rw [if_pos hinit]
    exact ⟨_, hflag, leads_ret { go with initted := false } rfl⟩
  rw [if_neg hinit]
  by_cases hcur : d.g.cur ≠ none
  · rw [if_pos hcur]
    have hstep : pollStep .irq go (d.requested o d.g) .current = (d.requested o d.g, .ret true) := by
      simp only [pollStep]
      rw [if_neg (show ¬ (d.requested o d.g).cur = none from hcur)]
    exact ⟨_, hflag, .poll go rfl (leads_ret go hstep)⟩
  rw [if_neg hcur]
  have hclaims : Leads cfg.sched .irq (d.requested o d.g, some ⟨[.poll .initted], none⟩)
      (d.requested o d.g, some ⟨[.poll .claim], none⟩) := by
    have hstep : pollStep .irq go (d.requested o d.g) .current =
        (d.requested o d.g, .goto (.poll .claim)) := by
      simp only [pollStep]
      rw [if_pos (show (d.requested o d.g).cur = none from not_not.mp hcur)]
    exact .poll go rfl (.poll go hstep (.refl _))
  generalize hd : Serviced.after o.pendingAfter { d with g := (claim .irq d.g).2 } = d₁
  have hclaim : claim .irq (advance o.pendingAfter (d.requested o d.g)) =
      ((claim .irq d.g).1, d₁.requested o d₁.g) := by
    rw [← hd]
    have howner : (advance o.pendingAfter (d.requested o d.g)).owner = d.g.owner := rfl
    unfold claim
    rw [howner]
    split_ifs <;> rfl
  dsimp only
  by_cases hgot : (claim .irq d.g).1 = false
  · rw [if_pos hgot]
    have hrefused : claim .irq (d.requested o d.g) = (false, d.requested o d.g) := by
      have howner : (d.requested o d.g).owner = d.g.owner := rfl
      unfold claim at hgot ⊢
      rw [howner]
      split_ifs at hgot ⊢
      rfl
    have hstep : pollStep .irq go (d.requested o d.g) .claim =
        (d.requested o d.g, .goto (.poll .refused)) := by
      simp only [pollStep, hrefused]
      rfl
    exact ⟨_, hflag, hclaims.trans (.poll go hstep (leads_ret go rfl))⟩
  rw [if_neg hgot, hd]
  have hmine : Leads cfg.sched .irq (d.requested o d.g, some ⟨[.poll .claim], none⟩)
      (d₁.requested o d₁.g, some ⟨[.poll .requested], none⟩) := by
    refine .poll { go with dt := o.pendingAfter } ?_ (.refl _)
    simp only [pollStep, hclaim, Bool.eq_true_of_not_eq_false hgot, if_true]
  have hnodup₁ : d₁.g.taskList.Nodup := by
    have hlist : (claim .irq d.g).2.taskList = d.g.taskList := by
      unfold claim
      split_ifs <;> rfl
    rw [← hd]
    exact hlist ▸ hnodup
  have hon : ∃ g', bare g' = bare (d₁.goesOn cfg o).1.g ∧
      Leads cfg.sched .irq (d₁.requested o d₁.g, some ⟨[.poll .requested], none⟩)
        (g', some (pollAt (d₁.goesOn cfg o).2)) :=
    leads_goesOn hnodup₁ hwake (m := { go with
      irqPending := (Hal.irqPending cfg.hal o.pendingPins d₁.hal).1
      timerPending := timerPending (ticks d₁.g) d₁.timers }) rfl rfl rfl
  obtain ⟨g', hbare, hleads⟩ := hon
  exact ⟨g', hbare, (hclaims.trans hmine).trans hleads⟩

/-! ## The poll as the lines see it -/

/-- What `Hal.pollFunc` finds of what PendSV's poll serves. -/
def Serviced.input (o : Reads) (d : Serviced H) : Hal.PollInput where
  pins := o.pendingPins
  initted := d.initted
  inTask := d.g.cur.isSome
  claimed := (claim .irq d.g).1
  timerPending := timerPending (ticks (advance o.pendingAfter (claim .irq d.g).2)) d.timers
  schedPending := pending (advance o.pendingAfter (claim .irq d.g).2)

/-- PendSV's poll goes as the poll does that the lines see. -/
def Agrees (d : Serviced H) (r : Hal.Outcome H × Hal.State H) (p : Serviced H × Option (Ran H)) : Prop :=
  match r.1 with
  | .refused => p = (d, none)
  | .quiet => p.2 = none ∧ p.1.hal = r.2
  | .pass [] => (∀ l h, p.2 ≠ some (.handler l h)) ∧ p.1.hal = r.2
  | .pass ((l, h) :: _) => p.2 = some (.handler l h) ∧ p.1.hal = r.2

theorem runTasks_hal : (runTasks cfg o d).1.hal = d.hal ∧
    ∀ l h, (runTasks cfg o d).2 ≠ some (.handler l h) := by
  unfold runTasks
  dsimp only
  split
  · exact ⟨rfl, fun _ _ => nofun⟩
  · exact ⟨rfl, fun _ _ => nofun⟩

/-- The full passes agree, where the lines keep their level. -/
theorem agrees_fullPass (hpins : o.irqPins = o.pendingPins) (s : Hal.State H)
    (hs : { d.hal with pollRequested := false } = { s with pollRequested := false }) {d₀ : Serviced H} :
    Agrees d₀ (Hal.fullPass cfg.hal o.pendingPins s) (fullPass cfg o d) := by
  unfold Agrees Hal.fullPass fullPass
  rw [hpins, hs]
  dsimp only
  cases Hal.pollIrqs cfg.hal o.pendingPins { s with pollRequested := false } with
  | cons c cs => exact ⟨rfl, rfl⟩
  | nil =>
    dsimp only
    split
    · exact ⟨fun _ _ => nofun, rfl⟩
    · exact ⟨runTasks_hal.2, runTasks_hal.1⟩

/-- **PendSV's poll does to the lines what `Hal.pollFunc` says**, where they keep their level during it. -/
theorem poll_hal (hkeep : o.irqPins = o.pendingPins) :
    Agrees d (Hal.pollFunc cfg.hal (d.input o)
      { d.hal with pollRequested := d.hal.pollRequested || o.requested }) (pollFunc cfg o d) := by
  obtain ⟨s, hs⟩ : ∃ s, { d.hal with pollRequested := d.hal.pollRequested || o.requested } = s := ⟨_, rfl⟩
  rw [hs]
  -- a poll that does not get the claim
  have hrefused : (d.input o).served = false → pollFunc cfg o d = (d, none) →
      Agrees d (Hal.pollFunc cfg.hal (d.input o) s) (pollFunc cfg o d) := by
    intro hserved hpoll
    rw [Hal.pollFunc_refused hserved]
    exact hpoll
  by_cases hinit : d.initted = false
  · refine hrefused ?_ (if_pos hinit)
    simp [Hal.PollInput.served, Serviced.input, hinit]
  by_cases hcur : d.g.cur ≠ none
  · refine hrefused ?_ ((if_neg hinit).trans (if_pos hcur))
    simp [Hal.PollInput.served, Serviced.input, Option.isNone_iff_eq_none, hcur]
  by_cases hgot : (claim .irq d.g).1 = false
  · refine hrefused ?_ ((if_neg hinit).trans ((if_neg hcur).trans (if_pos hgot)))
    simp [Hal.PollInput.served, Serviced.input, hgot]
  have hserved : (d.input o).served = true := by
    simp [Hal.PollInput.served, Serviced.input, hinit, hgot, not_not.mp hcur]
  have hpoll : pollFunc cfg o d =
      Serviced.goesOn cfg o (Serviced.after o.pendingAfter { d with g := (claim .irq d.g).2 }) :=
    (if_neg hinit).trans ((if_neg hcur).trans (if_neg hgot))
  rw [hpoll]
  generalize hd : Serviced.after o.pendingAfter { d with g := (claim .irq d.g).2 } = d₁
  have hhal : d₁.hal = d.hal := by
    rw [← hd]
    rfl
  have hpins : (d.input o).pins = o.pendingPins := rfl
  have htimer : (d.input o).timerPending = timerPending (ticks d₁.g) d₁.timers := by
    rw [← hd]
    rfl
  have hsched : (d.input o).schedPending = pending d₁.g := by
    rw [← hd]
    rfl
  unfold Serviced.goesOn
  cases hreq : d.hal.pollRequested || o.requested with
  | true =>
    have hfinds : findsWork cfg o d₁ = (true, d₁) := if_pos (hhal ▸ hreq)
    have hrequested : s.pollRequested = true := by
      rw [← hs]
      exact hreq
    rw [Hal.pollFunc_requested hserved hrequested, hfinds]
    refine agrees_fullPass hkeep s ?_
    rw [hhal, ← hs]
  | false =>
    have hsame : d.hal.pollRequested = false := (Bool.or_eq_false_iff.mp hreq).1
    have hidle : s = d.hal := by rw [← hs, hreq, ← hsame]
    have hfinds : findsWork cfg o d₁ = ((Hal.irqPending cfg.hal o.pendingPins d.hal).1 ||
        timerPending (ticks d₁.g) d₁.timers || pending d₁.g,
        { d₁ with hal := (Hal.irqPending cfg.hal o.pendingPins d.hal).2 }) := by
      unfold findsWork
      rw [hhal, if_neg (ne_true_of_eq_false hreq)]
    rw [hidle, Hal.pollFunc_idle hserved hsame, hfinds, htimer, hsched]
    unfold Hal.irqPending
    dsimp only
    rw [hpins]
    cases hwork : Hal.busyCond cfg.hal o.pendingPins d.hal != d.hal.busySeen ||
        Hal.irqCond o.pendingPins d.hal || timerPending (ticks d₁.g) d₁.timers || pending d₁.g with
    | true =>
      rw [if_pos rfl, if_neg Bool.noConfusion]
      exact agrees_fullPass (d := { d₁ with hal := { d.hal with
        busySeen := Hal.busyCond cfg.hal o.pendingPins d.hal } }) hkeep _ rfl
    | false => exact ⟨rfl, rfl⟩

end Polls

end MmHalow.Ctrl
