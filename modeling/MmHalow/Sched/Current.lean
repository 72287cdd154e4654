import MmHalow.Sched.Control

/-!
# The current task in PendSV (`mm_halow_sched_task_current`)

`mm_halow_task_cur` is one word for two contexts. A context that yields or parks saves itself to the
task it names, so in PendSV it must name nothing but a task that PendSV's own run has resumed
(`OwnTask`). It does as long as PendSV is never taken inside a turn that thread context gives; in a
turn the word names the thread's task, and PendSV takes it for its own.

* `OuterFrame`: the frames PendSV has outside a turn never leave as a task.
* `current_task_iff`: **in a run every state meets `OwnTask` exactly when every PendSV was taken
  outside the turns of thread context.**
* `current_task_foreign`: a run in which PendSV is about to save its stack to the thread's task.
-/

namespace MmHalow.Sched

open MmHalow.Lib MmHalow.Lib.Clock MmHalow.Osal

/-- The frames a context executes: its own, or those of the task that has its turn. -/
def Context.executing (c : Context) : List Frame :=
  match c.body with
  | none => c.frames
  | some b => b.frames

/-- The task a stack is saved to, or left as. -/
def StackMove.leaves : StackMove → Option TaskId
  | .switch t _ => some t
  | .retire t => some t
  | _ => none

/-- **In PendSV the current task is one that PendSV's run has made current**, and PendSV leaves only
as such a task. -/
structure OwnTask (cfg : Config) (s : Machine) : Prop where
  current : ∀ c t, s.pendsv = some c → s.g.cur = some t → bodyCur c.body = some t
  leaves : ∀ c o t, s.pendsv = some c →
    (stackStep cfg .irq o (advance o.dt s.g) c.executing).2.leaves = some t →
    bodyCur c.body = some t

/-! ## Frames that do not leave -/

/-- A frame that has not looked at a current task. -/
def OuterFrame : Frame → Prop
  | .yield (.woken _) => False
  | .yield (.switch _) => False
  | .park _ _ (.deadline _) => False
  | .park _ _ (.switch _) => False
  | .op todo => ∀ u, .retire u ∉ todo
  | _ => True

variable {cfg : Config} {x : Ctx} {o : Choice} {g : Globals} {f : Frame} {t : TaskId}

theorem OuterFrame.call (c : Call) : OuterFrame c.frame := by
  cases c with
  | op p =>
    cases p with
    | taskDelete u => cases u <;> simp [Call.frame, Op.micros, OuterFrame]
    | _ => simp [Call.frame, Op.micros, OuterFrame]
  | _ => trivial

theorem OuterFrame.resume {r : Bool} (h : OuterFrame f) : OuterFrame (resumeWith r f) := by
  unfold resumeWith
  split
  · trivial
  · exact h

theorem microStep_no_retire {m : Micro} {rest : List Micro} {heap : Bool} (hcur : g.cur = none)
    (h : ∀ u, .retire u ∉ m :: rest) : ∀ u, .retire u ∉ (microStep cfg heap m rest g).1 := by
  have hrest : ∀ u, .retire u ∉ rest := fun u hu => h u (List.mem_cons_of_mem _ hu)
  intro u
  cases m with
  | semGive s =>
    simp only [microStep]
    split_ifs
    · exact hrest u
    · exact List.not_mem_nil
  | queuePush q item =>
    simp only [microStep]
    split_ifs
    · exact hrest u
    · exact List.not_mem_nil
  | queuePop q =>
    simp only [microStep]
    split
    · exact hrest u
    · exact List.not_mem_nil
  | deleteSelf =>
    simp only [microStep, hcur]
    exact List.not_mem_nil
  | retire v => exact List.not_mem_nil
  | create =>
    simp only [microStep]
    split
    · exact List.not_mem_nil
    · exact hrest u
  | _ => exact hrest u

/-- While no task is current, frames do not come to look at one. -/
theorem OuterFrame.step (hcur : g.cur = none) (hf : OuterFrame f) :
    ∀ f' ∈ (frameStep cfg x o g f).2.frames, OuterFrame f' := by
  cases f with
  | poll pc =>
    cases pc with
    | irqs => exact codeStep_frames OuterFrame.call trivial (List.forall_mem_singleton.mpr trivial)
    | timers => exact codeStep_frames OuterFrame.call trivial (List.forall_mem_singleton.mpr trivial)
    | initted => simp only [frameStep, pollStep]; split_ifs <;> simp [Move.frames, OuterFrame]
    | schedPending => simp only [frameStep, pollStep]; split_ifs <;> simp [Move.frames, OuterFrame]
    | _ => simp [frameStep, pollStep, hcur, Move.frames, OuterFrame]
  | yield pc =>
    cases pc with
    | woken u => exact hf.elim
    | switch u => exact hf.elim
    | claim =>
      simp only [frameStep, yieldStep, Move.frames, List.forall_mem_singleton]
      split_ifs <;> trivial
    | hook =>
      simp only [frameStep, yieldStep]
      split_ifs
      · exact fun f hf => absurd hf List.not_mem_nil
      · exact codeStep_frames OuterFrame.call trivial fun f hf => absurd hf List.not_mem_nil
    | _ => simp [frameStep, yieldStep, hcur, Move.frames, OuterFrame]
  | park timed wakeAt pc =>
    cases pc with
    | current => simp [frameStep, parkStep, hcur, Move.frames, OuterFrame]
    | _ => exact hf.elim
  | run pc =>
    cases pc with
    | check => simp only [frameStep, runEntryStep]; split_ifs <;> simp [Move.frames, OuterFrame]
    | set => simp [frameStep, runEntryStep, Move.frames]
  | wait c evals w =>
    simp only [frameStep, waitFrame]
    split
    case h_2 => split_ifs <;> simp [Move.frames, OuterFrame]
    all_goals simp [Move.frames, OuterFrame]
  | notifyWait timeoutMs => simp [frameStep, notifyWaitStep, hcur, Move.frames]
  | mutexGet m timeoutMs pc =>
    cases pc with
    | enter =>
      simp only [frameStep, mutexGetStep]
      split_ifs <;> simp [Move.frames, OuterFrame, waitOn]
    | _ => simp [frameStep, mutexGetStep, Move.frames, OuterFrame, waitOn]
  | op todo =>
    simp only [frameStep]
    unfold opStep
    split
    · simp [Move.frames]
    · simp [Move.frames]
    · intro f' hf'
      obtain rfl := List.mem_singleton.mp hf'
      exact microStep_no_retire hcur hf
  | region pc =>
    cases pc with
    | inside => exact codeStep_frames OuterFrame.call trivial (List.forall_mem_singleton.mpr trivial)
    | _ => simp [frameStep, regionStep, Move.frames, OuterFrame]

/-- The task a frame's step leaves as. -/
def Move.leaves : Move → Option TaskId
  | .switch t => some t
  | .retire t => some t
  | _ => none

theorem Move.leaves_onto (mv : Move) (rest : List Frame) : (mv.onto rest).leaves = mv.leaves := by
  cases mv <;> rfl

/-- The places at which a frame leaves. -/
theorem frameStep_leaves (h : (frameStep cfg x o g f).2.leaves = some t) :
    f = .yield (.switch t) ∨ (∃ timed w, f = .park timed w (.switch t)) ∨
      ∃ todo, f = .op (.retire t :: todo) := by
  generalize hst : frameStep cfg x o g f = r at h
  obtain ⟨g', mv⟩ := r
  cases frameStep_exit hst with
  | stay hs => cases mv <;> simp_all [Move.leaves, Move.stays]
  | enter => exact absurd h (Option.some_ne_none t).symm
  | yield =>
    obtain rfl := Option.some.inj h
    exact Or.inl rfl
  | park =>
    obtain rfl := Option.some.inj h
    exact Or.inr (Or.inl ⟨_, _, rfl⟩)
  | retire =>
    obtain rfl := Option.some.inj h
    exact Or.inr (Or.inr ⟨_, rfl⟩)

/-- A stack leaves as its top frame does. -/
theorem stackStep_leaves {l : List Frame} (h : (stackStep cfg x o g l).2.leaves = some t) :
    ∃ f rest, l = f :: rest ∧ (frameStep cfg x o g f).2.leaves = some t := by
  cases l with
  | nil =>
    simp only [stackStep] at h
    split at h <;> simp [StackMove.leaves] at h
  | cons f rest =>
    refine ⟨f, rest, rfl, ?_⟩
    rw [← Move.leaves_onto _ rest]
    exact h

theorem OuterFrame.not_leaves (hf : OuterFrame f) : (frameStep cfg x o g f).2.leaves ≠ some t := by
  intro h
  rcases frameStep_leaves h with rfl | ⟨timed, w, rfl⟩ | ⟨todo, rfl⟩
  · exact hf
  · exact hf
  · exact hf t List.mem_cons_self

theorem TaskFrame.leaves {u : TaskId} (hf : TaskFrame u f)
    (h : (frameStep cfg x o g f).2.leaves = some t) : t = u := by
  rcases frameStep_leaves h with rfl | ⟨timed, w, rfl⟩ | ⟨todo, rfl⟩
  · simpa [TaskFrame] using hf
  · simpa [TaskFrame] using hf
  · exact hf t List.mem_cons_self

/-! ## PendSV outside the turns of the thread -/

/-- PendSV was taken outside the turns of thread context, and its frames do not leave. -/
def Outside (s : Machine) : Prop :=
  ∀ c, s.pendsv = some c → bodyCur s.thread.body = none ∧ ∀ f ∈ c.frames, OuterFrame f

variable {s u : Machine} {e : Event}

/-- **Every step keeps PendSV outside**, where PendSV is taken outside a turn of the thread. -/
theorem Outside.step (hc : Control s) (h : Outside s)
    (hd : e = .dispatch → bodyCur s.thread.body = none) (hs : Step cfg s e u) : Outside u := by
  cases hs.cases with
  | isr => exact h
  | isrDone => exact h
  | isrStep => exact h
  | dispatch =>
    intro c hc
    obtain rfl := Option.some.inj hc
    exact ⟨hd rfl, fun f hf => absurd hf List.not_mem_nil⟩
  | thread _ hp => exact fun c hc => absurd (hp.symm.trans hc) (Option.some_ne_none c).symm
  | @pendsv o c g' c' _ hp hst =>
    obtain ⟨hcur, hfr⟩ := h c hp
    unfold Control at hc
    rw [hp] at hc
    have hg : c.body = none → (advance o.dt s.g).cur = none := by
      intro hb
      have : s.g.cur = (bodyCur c.body).or (bodyCur s.thread.body) := hc.1.cur
      rwa [hb, hcur] at this
    intro d hd
    obtain rfl : c' = some d := hd
    refine ⟨hcur, ?_⟩
    cases Context.step_cases hst with
    | frames hb hm =>
      exact stackStep_all hm OuterFrame.call (fun _ _ hf => hf.resume)
        (fun _ _ hf => hf.step (hg hb)) hfr
    | enter hb hm =>
      exact stackStep_all hm OuterFrame.call (fun _ _ hf => hf.resume)
        (fun _ _ hf => hf.step (hg hb)) hfr
    | _ => exact hfr

/-- **PendSV outside the turns of the thread has its own task only.** -/
theorem Outside.ownTask (hc : Control s) (h : Outside s) : OwnTask cfg s := by
  unfold Control at hc
  constructor
  · intro c t hp ht
    rw [hp] at hc
    have hcur : s.g.cur = (bodyCur c.body).or (bodyCur s.thread.body) := hc.1.cur
    rw [(h c hp).1, Option.or_none] at hcur
    exact hcur.symm.trans ht
  · intro c o t hp hl
    rw [hp] at hc
    obtain ⟨f, rest, hex, hf⟩ := stackStep_leaves hl
    cases hb : c.body with
    | none =>
      have hmem : f ∈ c.frames := by
        have hc : c.frames = f :: rest := by simpa only [Context.executing, hb] using hex
        exact hc ▸ List.mem_cons_self
      exact absurd hf ((h c hp).2 f hmem).not_leaves
    | some b =>
      have hbody := hc.1.body b hb
      rw [Context.executing, hb] at hex
      obtain ⟨pc, fr⟩ := b
      obtain rfl : fr = f :: rest := hex
      cases pc with
      | inTurn pass v =>
        obtain rfl := (hbody f List.mem_cons_self).leaves hf
        rfl
      | _ => exact absurd hbody (List.cons_ne_nil f rest)

/-! ## The current task in every run -/

variable {now : Nat} {mutex : Nat → Mutex} {sem : Nat → Sem} {semb : Nat → Bool}
  {queue : Nat → Queue} {tr : List Event}

theorem Step.det (s : Machine) (e : Event) (a b : Machine) (ha : Step cfg s e a)
    (hb : Step cfg s e b) : a = b :=
  Option.some.inj (ha.symm.trans hb)

/-- **The current task of PendSV is its own in every state of a run exactly when every PendSV of the
run was taken outside the turns of thread context**: not between `mm_halow_task_cur = task` and
`mm_halow_task_cur = NULL` in the thread's `mm_halow_sched_run`. -/
theorem current_task_iff
    (h : Run (Step cfg) (boot (bootGlobals now mutex sem semb queue)) tr s) :
    (∀ tr₁ u, tr₁ <+: tr → Run (Step cfg) (boot (bootGlobals now mutex sem semb queue)) tr₁ u →
      OwnTask cfg u) ↔
    ∀ tr₁ u, tr₁ ++ [.dispatch] <+: tr →
      Run (Step cfg) (boot (bootGlobals now mutex sem semb queue)) tr₁ u →
      bodyCur u.thread.body = none := by
  constructor
  · rintro hown tr₁ u ⟨tr₂, rfl⟩ hu
    obtain ⟨v, hv, -⟩ := h.split
    obtain ⟨w, hw, hs⟩ := hv.split
    obtain rfl := Run.det Step.det hw hu
    obtain ⟨v', hd, hv'⟩ := hs.uncons
    obtain rfl := hv'.of_nil
    have hv := hown _ _ (List.prefix_append _ _) hv
    have hc := Control.run hu
    cases hd.cases with
    | dispatch _ hp =>
      unfold Control at hc
      rw [hp] at hc
      have hcur : w.g.cur = bodyCur w.thread.body := hc.cur.trans Option.or_none
      cases ht : bodyCur w.thread.body with
      | none => rfl
      | some t => exact absurd (hv.current idle t rfl (hcur.trans ht)) (Option.some_ne_none t).symm
  · intro hout tr₁ u hpre hu
    suffices hi : Outside u from hi.ownTask (Control.run hu)
    refine hu.inv_trace (I := fun tr' v => tr' <+: tr → Outside v) ?_ ?_ hpre
    · exact fun _ c hc => absurd hc (Option.some_ne_none c).symm
    · intro tr' v e w hv hi hs hpre
      have hpre' : tr' <+: tr := (List.prefix_append _ _).trans hpre
      refine (hi hpre').step (Control.run hv) ?_ hs
      rintro rfl
      exact hout tr' v hpre hv

/-- PendSV creates a task and yields, and the task has its turn and is over. -/
def turnInPendsv : List Event :=
  .dispatch :: ((.pendsv (calling (.op .taskCreate)) :: List.replicate 3 (.pendsv go)) ++
    .pendsv (calling .yield) :: List.replicate 18 (.pendsv go))

/-- PendSV may run tasks of its own. -/
theorem current_task_pendsv : (∃ s, Run (Step .defaults) bootBare turnInPendsv s) ∧
    ∀ tr₁ u, tr₁ <+: turnInPendsv → Run (Step .defaults) bootBare tr₁ u →
      OwnTask .defaults u := by
  obtain ⟨s, hs, -⟩ := run_any (fun _ => true)
    (by rfl : (turnInPendsv.foldlM (step .defaults) bootBare).any _ = true)
  refine ⟨⟨s, hs⟩, (current_task_iff hs).mpr ?_⟩
  rintro (_ | ⟨e, tr⟩) u hpre hu
  · rw [hu.of_nil]
    rfl
  · have htail := (List.cons_prefix_cons.mp hpre).2.subset (List.mem_append_right tr List.mem_cons_self)
    exact absurd htail (by decide)

/-- Thread context creates a task and yields, until the task has its turn; PendSV is taken there
and yields, up to its context switch. -/
def yieldInTurn : List Event :=
  (.thread (calling (.op .taskCreate)) :: List.replicate 3 (.thread go)) ++
    (.thread (calling .yield) :: List.replicate 12 (.thread go)) ++
    [.dispatch, .pendsv (calling .yield), .pendsv go, .pendsv go]

/-- PendSV is outside any run, and its next step saves its stack to task 0. -/
def aboutToSwitch (s : Machine) : Bool :=
  s.pendsv.any fun c => c.body.isNone &&
    (stackStep .defaults .irq go (advance 0 s.g) c.executing).2.leaves = some 0

/-- PendSV cuts in on the turn of a task of thread context, yields and takes this task for its
own. -/
theorem current_task_foreign : ¬ ∀ (cfg : Config) (now : Nat) (mutex : Nat → Mutex)
    (sem : Nat → Sem) (semb : Nat → Bool) (queue : Nat → Queue) (tr : List Event) (s : Machine),
    Run (Step cfg) (boot (bootGlobals now mutex sem semb queue)) tr s → OwnTask cfg s := by
  intro h
  obtain ⟨s, hs, hp⟩ := run_any aboutToSwitch
    (by rfl : (yieldInTurn.foldlM (step .defaults) bootBare).any aboutToSwitch = true)
  obtain ⟨c, hc, hsw⟩ := (Option.any_eq_true _ _).mp hp
  obtain ⟨hb, hl⟩ := Bool.and_eq_true_iff.mp hsw
  have := (h _ _ _ _ _ _ _ s hs).leaves c go 0 hc (of_decide_eq_true hl)
  rw [Option.isNone_iff_eq_none.mp hb] at this
  exact absurd this (Option.some_ne_none 0).symm

end MmHalow.Sched
