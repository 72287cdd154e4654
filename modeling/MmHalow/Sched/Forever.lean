import MmHalow.Sched.Objects

/-!
# Infinite waits (`mm_halow_sched_wait`, `UINT32_MAX`)

An infinite wait that meets `mm_halow_sched_teardown` raised becomes a timed one: it goes on with
one bounded grace period, and stays timed if the flag is lowered while it is parked. What it then
returns is no longer bound to teardown.

* `Wait.grace`: an infinite wait that has become timed and is not satisfied.
* `wait_forever_honoured`: **as long as the flag is lowered only while no infinite wait is in its
  grace period, an infinite wait returns false only where the flag is raised.**
* `wait_forever_broken`: a run in which a task's infinite wait sees the flag raised, the flag is
  lowered, and the wait gives up `MM_HALOW_SCHED_WAIT_MAX_MS` later.
-/

namespace MmHalow.Sched

open MmHalow.Lib MmHalow.Lib.Clock MmHalow.Osal

/-- The wait is satisfied. -/
def WaitPc.satisfied : WaitPc → Bool
  | .leave r => r
  | .wake r => r
  | .done => true
  | _ => false

/-- An infinite wait that has seen teardown raised and become timed, and is not satisfied. -/
def Wait.grace (w : Wait) : Bool :=
  w.asked = waitForever && w.pc ≠ .cap && !w.pc.satisfied && (!w.forever || w.timeoutMs = 0)

def Frame.grace : Frame → Bool
  | .wait _ _ w => w.grace
  | _ => false

/-- An infinite wait gives up only where it has become timed. -/
def ForeverOk : Frame → Prop
  | .wait _ _ w => w.asked = waitForever →
    match w.pc with
    | .cap => w.timeoutMs = waitForever
    | .elapsed => w.forever = false
    | .recheck => w.forever = false
    | .leave r => r = true ∨ w.forever = false ∨ w.timeoutMs = 0
    | .wake r => r = true ∨ w.forever = false ∨ w.timeoutMs = 0
    | _ => True
  | _ => True

variable {cfg : Config} {x : Ctx} {o : Choice} {g : Globals} {f : Frame}

/-- What a step of an infinite wait leaves: it gives up only as a timed wait, and becomes one only
where teardown is raised. -/
def ForeverStep (g : Globals) (w : Wait) (f' : Frame) : Prop :=
  ForeverOk f' ∧ (g.teardown = false → w.grace = false → f'.grace = false)

theorem Wait.grace_satisfied {w : Wait} (h : w.pc.satisfied = true) : w.grace = false := by
  simp [Wait.grace, h]

theorem waitFrame_forever {c : Cond} {evals : List Bool} {w : Wait} (h : ForeverOk (.wait c evals w)) :
    ∀ f' ∈ (waitFrame cfg g c evals w).2.frames, ForeverStep g w f' := by
  obtain ⟨timeoutMs, forever, start, counted, pc, asked⟩ := w
  cases pc with
  | cap =>
    refine List.forall_mem_singleton.mpr ⟨fun _ => trivial, fun htd _ => ?_⟩
    by_cases ha : asked = waitForever
    · obtain rfl : timeoutMs = waitForever := h ha
      simp [Frame.grace, Wait.grace, waitStep, htd, waitForever]
    · simp [Frame.grace, Wait.grace, waitStep, ha]
  | start => exact List.forall_mem_singleton.mpr ⟨fun _ => trivial, fun _ hg => hg⟩
  | counted =>
    simp only [waitFrame, waitStep]
    cases decide (g.cur = none) <;>
      exact List.forall_mem_singleton.mpr ⟨fun _ => trivial, fun _ hg => hg⟩
  | cond =>
    intro f' hf'
    rcases (waitFrame_eval (Or.inl rfl)).2 f' hf' with rfl | rfl
    · cases (evalCond cfg c g).1 with
      | true => exact ⟨fun _ => Or.inl rfl, fun _ _ => Wait.grace_satisfied rfl⟩
      | false => exact ⟨fun _ => trivial, fun _ hg => hg⟩
    · exact ⟨trivial, fun _ _ => rfl⟩
  | zero =>
    by_cases ht : timeoutMs = 0
    · simp only [waitFrame, waitStep, if_pos ht]
      exact List.forall_mem_singleton.mpr ⟨fun _ => Or.inr (Or.inr ht), fun _ hg => hg⟩
    · simp only [waitFrame, waitStep, if_neg ht]
      cases forever with
      | true => exact List.forall_mem_singleton.mpr ⟨fun _ => trivial, fun _ hg => hg⟩
      | false => exact List.forall_mem_singleton.mpr ⟨fun _ => rfl, fun _ hg => hg⟩
  | teardown =>
    simp only [waitFrame, waitStep]
    cases htd : g.teardown with
    | true =>
      exact List.forall_mem_singleton.mpr ⟨fun _ => rfl, fun hf => Bool.noConfusion (htd.symm.trans hf)⟩
    | false =>
      exact List.forall_mem_cons.mpr ⟨⟨trivial, fun _ _ => rfl⟩,
        List.forall_mem_singleton.mpr ⟨fun _ => trivial, fun _ hg => hg⟩⟩
  | elapsed =>
    by_cases ht : timeoutMs ≤ ticks g - start
    · simp only [waitFrame, waitStep, if_pos ht]
      exact List.forall_mem_singleton.mpr ⟨h, fun _ hg => hg⟩
    · simp only [waitFrame, waitStep, if_neg ht]
      exact List.forall_mem_cons.mpr ⟨⟨trivial, fun _ _ => rfl⟩,
        List.forall_mem_singleton.mpr ⟨fun _ => trivial, fun _ hg => hg⟩⟩
  | recheck =>
    intro f' hf'
    rcases (waitFrame_eval (Or.inr rfl)).2 f' hf' with rfl | rfl
    · cases (evalCond cfg c g).1 with
      | true => exact ⟨fun _ => Or.inl rfl, fun _ _ => Wait.grace_satisfied rfl⟩
      | false => exact ⟨fun ha => Or.inr (Or.inl (h ha)), fun _ hg => hg⟩
    · exact ⟨trivial, fun _ _ => rfl⟩
  | leave r =>
    simp only [waitFrame, waitStep]
    cases counted <;> exact List.forall_mem_singleton.mpr ⟨h, fun _ hg => hg⟩
  | wake r =>
    cases r with
    | true =>
      exact List.forall_mem_singleton.mpr ⟨fun _ => trivial, fun _ _ => Wait.grace_satisfied rfl⟩
    | false => exact fun f' hf' => absurd hf' List.not_mem_nil
  | done => exact fun f' hf' => absurd hf' List.not_mem_nil

theorem waitOn_forever (c : Cond) (timeoutMs : UInt32) :
    ForeverOk (waitOn c timeoutMs) ∧ (waitOn c timeoutMs).grace = false :=
  ⟨id, by simp [waitOn, Frame.grace, Wait.grace, waitCall]⟩

theorem Frame.grace_other (h : f.isWait = false) : ForeverOk f ∧ f.grace = false := by
  cases f with
  | wait c evals w => exact Bool.noConfusion h
  | _ => exact ⟨trivial, rfl⟩

theorem Call.forever (c : Call) : ForeverOk c.frame ∧ c.frame.grace = false := by
  cases c with
  | semWait s timeoutMs => exact waitOn_forever _ _
  | sembWait s timeoutMs => exact waitOn_forever _ _
  | queuePop q timeoutMs => exact waitOn_forever _ _
  | queuePush q item timeoutMs => exact waitOn_forever _ _
  | join t => exact waitOn_forever _ _
  | _ => exact ⟨trivial, rfl⟩

theorem forever_resume {r : Bool} (h : ForeverOk f ∧ f.grace = false) :
    ForeverOk (resumeWith r f) ∧ (resumeWith r f).grace = false := by
  unfold resumeWith
  split
  · exact ⟨trivial, rfl⟩
  · exact h

theorem foreverOk_rule : FrameRule cfg (fun _ => True) ForeverOk where
  call c := c.forever.1
  resume r f h := by
    unfold resumeWith
    split
    · trivial
    · exact h
  save _ _ _ h := h
  step x o g f _ h := by
    refine frameStep_wait (fun f' hf' => (Frame.grace_other hf').1)
      (fun c timeoutMs => (waitOn_forever c timeoutMs).1) fun c evals w hf f' hf' => ?_
    subst hf
    exact (waitFrame_forever h f' hf').1

theorem evalCond_teardown (c : Cond) : (evalCond cfg c g).2.teardown = g.teardown := by
  cases c with
  | queuePopped q =>
    simp only [evalCond]
    split <;> rfl
  | mutexAcquired m => rfl
  | sembTaken s => rfl
  | isDead t => rfl
  | _ =>
    simp only [evalCond]
    split_ifs <;> rfl

/-- No step of a wait touches teardown. -/
theorem waitFrame_teardown {c : Cond} {evals : List Bool} {w : Wait} :
    (waitFrame cfg g c evals w).1.teardown = g.teardown := by
  unfold waitFrame
  generalize waitStep cfg (ticks g) g.teardown (g.cur = none) w = r
  obtain ⟨w', act⟩ := r
  cases act with
  | eval => exact evalCond_teardown c
  | _ => rfl

/-- No infinite wait comes into its grace period by a step that ends with teardown lowered. -/
theorem grace_rule : FrameRule cfg (fun g => g.teardown = false)
    (fun f => ForeverOk f ∧ f.grace = false) where
  call c := c.forever
  resume _ _ h := forever_resume h
  save _ _ _ h := h
  step x o g f htd h := by
    refine frameStep_wait (fun _ => Frame.grace_other) waitOn_forever fun c evals w hf f' hf' => ?_
    subst hf
    obtain ⟨hok, hstep⟩ := waitFrame_forever h.1 f' hf'
    exact ⟨hok, hstep (waitFrame_teardown.symm.trans htd) h.2⟩

/-! ## Runs -/

/-- The step lowers teardown only where no infinite wait is in its grace period. -/
def KeepsGrace (s u : Machine) : Prop :=
  s.g.teardown = true → u.g.teardown = false → AllFrames (fun f => f.grace = false) s

/-- **An infinite wait that returns false now does so with teardown raised.** -/
def ForeverHonoured (cfg : Config) (s : Machine) : Prop :=
  AllFrames (fun f => ∀ c evals w dt, f = .wait c evals w → w.asked = waitForever →
    (waitFrame cfg (advance dt s.g) c evals w).2 = .ret false → s.g.teardown = true) s

/-- Where teardown is lowered, no infinite wait is in its grace period. -/
structure GraceOk (s : Machine) : Prop where
  forever : AllFrames ForeverOk s
  lowered : s.g.teardown = false → AllFrames (fun f => ForeverOk f ∧ f.grace = false) s

variable {s u : Machine} {e : Event}

theorem GraceOk.step (h : GraceOk s) (hs : Step cfg s e u) (hk : KeepsGrace s u) : GraceOk u where
  forever := hs.frames foreverOk_rule trivial h.forever
  lowered := by
    intro htd
    refine hs.frames grace_rule htd ?_
    cases ht : s.g.teardown with
    | false => exact h.lowered ht
    | true => exact h.forever.and (hk ht htd)

/-- An infinite wait that is about to give up is in its grace period. -/
theorem ForeverOk.gives_up {c : Cond} {evals : List Bool} {w : Wait}
    (h : ForeverOk (.wait c evals w)) (hw : w.asked = waitForever) (hpc : w.pc = .wake false) :
    w.grace = true := by
  have hor := h hw
  rw [hpc] at hor
  rcases hor with hf | hf | hf
  · exact Bool.noConfusion hf
  · simp [Wait.grace, hw, hpc, WaitPc.satisfied, hf]
  · simp [Wait.grace, hw, hpc, WaitPc.satisfied, hf]

theorem GraceOk.honoured (h : GraceOk s) : ForeverHonoured cfg s := by
  cases ht : s.g.teardown with
  | true => exact h.forever.imp fun f _ _ _ _ _ _ _ _ => ht
  | false =>
    refine (h.lowered ht).imp fun f hf c evals w dt he hw hr => ?_
    subst he
    rcases waitFrame_ret hr with ⟨hr', -⟩ | ⟨-, hpc⟩
    · exact Bool.noConfusion hr'
    · exact Bool.noConfusion ((hf.1.gives_up hw hpc).symm.trans hf.2)

variable {now : Nat} {mutex : Nat → Mutex} {sem : Nat → Sem} {semb : Nat → Bool}
  {queue : Nat → Queue} {tr : List Event}

/-- **An infinite wait is honoured** in every run that lowers teardown only where no infinite wait is
in its grace period. -/
theorem wait_forever_honoured
    (h : Run (fun s e u => Step cfg s e u ∧ KeepsGrace s u)
      (boot (bootGlobals now mutex sem semb queue)) tr s) : ForeverHonoured cfg s := by
  suffices hg : GraceOk s from hg.honoured
  refine h.inv ⟨AllFrames.boot _ fun _ => rfl, fun _ => AllFrames.boot _ fun _ => rfl⟩ ?_
  intro t e u ht hs
  exact ht.step hs.1 hs.2

/-- A task parks in an infinite wait, and goes on with it once teardown is raised. -/
def parkForever : List Event :=
  .thread (calling (.op .taskCreate)) :: List.replicate 3 (.thread go) ++
    (.thread (calling .run) :: List.replicate 9 (.thread go)) ++
    (.thread (calling (.semWait 0 waitForever)) :: List.replicate 14 (.thread go)) ++
    (.thread (calling (.op (.setTeardown true))) :: List.replicate 2 (.thread go)) ++
    (.thread (calling .run) :: List.replicate 21 (.thread go))

/-- The task's next turn, `MM_HALOW_SCHED_WAIT_MAX_MS` later. -/
def turnAfterMax : List Event :=
  .thread { calling .run with dt := 10000 } :: List.replicate 14 (.thread go)

/-- The task in its turn is about to give up an infinite wait. -/
def givesUp (s : Machine) : Bool :=
  match s.thread.body with
  | some ⟨_, .wait _ _ w :: _⟩ => w.asked = waitForever && w.pc = .wake false
  | _ => false

/-- A step that does not lower teardown. -/
def stepRaised (s : Machine) (e : Event) : Option Machine :=
  (step .defaults s e).filter fun u => !s.g.teardown || u.g.teardown

theorem stepRaised_keeps {e : Event} (h : stepRaised s e = some u) :
    Step .defaults s e u ∧ KeepsGrace s u := by
  obtain ⟨hs, hp⟩ := Option.filter_eq_some_iff.mp h
  refine ⟨hs, fun ht hu => ?_⟩
  simp [ht, hu] at hp

theorem wait_forever_honoured_raised : ∃ s,
    Run (fun s e u => Step .defaults s e u ∧ KeepsGrace s u) bootBare (parkForever ++ turnAfterMax) s ∧
      givesUp s = true ∧ ForeverHonoured .defaults s := by
  obtain ⟨s, hs, hp⟩ := Run.ofFold_any (p := givesUp) (fun _ _ _ => stepRaised_keeps)
    (by decide +kernel : ((parkForever ++ turnAfterMax).foldlM stepRaised bootBare).any givesUp = true)
  exact ⟨s, hs, hp, wait_forever_honoured hs⟩

/-- Teardown is lowered while the task is parked. -/
def lowerWhileParked : List Event :=
  parkForever ++ .thread (calling (.op (.setTeardown false))) :: List.replicate 2 (.thread go) ++
    turnAfterMax

theorem wait_forever_broken : ¬ ∀ (cfg : Config) (now : Nat) (mutex : Nat → Mutex) (sem : Nat → Sem)
    (semb : Nat → Bool) (queue : Nat → Queue) (tr : List Event) (s : Machine),
    Run (Step cfg) (boot (bootGlobals now mutex sem semb queue)) tr s → ForeverHonoured cfg s := by
  intro h
  obtain ⟨s, hs, hp⟩ := run_any (fun s => givesUp s && !s.g.teardown)
    (by decide +kernel : (lowerWhileParked.foldlM (step .defaults) bootBare).any
      (fun s => givesUp s && !s.g.teardown) = true)
  obtain ⟨hup, htd⟩ := Bool.and_eq_true_iff.mp hp
  have hall := h _ _ _ _ _ _ _ s hs
  unfold givesUp at hup
  split at hup
  · next c evals w rest hb =>
    obtain ⟨ha, hpc⟩ := Bool.and_eq_true_iff.mp hup
    have hret : (waitFrame .defaults (advance 0 s.g) c evals w).2 = .ret false := by
      simp [waitFrame, waitStep, of_decide_eq_true hpc]
    have := hall.thread.body _ hb _ List.mem_cons_self c evals w 0 rfl (of_decide_eq_true ha) hret
    simp [this] at htd
  · exact Bool.noConfusion hup

end MmHalow.Sched
