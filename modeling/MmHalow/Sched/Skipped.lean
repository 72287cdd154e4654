import MmHalow.Sched.Timing
import MmHalow.Sched.Woken

/-!
# Skipped passes (`mm_halow_sched_pending`)

A poll makes no pass while nothing is pending: the woken flag is clear and no wait is due to time
out. The flag is cleared at the start of each pass and the earliest deadline gathered afresh by it,
while tasks park one after the other and interrupts make operations on what they wait for.

* `wakeTime`: the time behind `mm_halow_sched_wake_at`, counted from the start of the pass; `InReach`: a
  deadline that compares right with it.
* `Settled`: a task is parked in a wait whose condition is false and whose deadline the scheduler
  has taken into account.
* `Calm`: the tasks that have had their turn since the flag was cleared are settled.
* `Noted.step`: **every step leaves the scheduler woken, about to be, or calm.**
* `no_wake_lost`: **while nothing is pending, every ready task is parked in a wait whose condition is
  false and whose deadline has not been reached**, in runs in which deadlines compare right.
* `deadline_missed`: one that does not, after a turn of 2^31 - 5000 ms.
* `skipped_pass`: the same in runs whose turns and polls are in time, in which deadlines do compare right.
-/

namespace MmHalow.Sched

open MmHalow.Lib MmHalow.Lib.Clock MmHalow.Osal

variable {cfg : Config} {x : Ctx} {o : Choice} {g g' : Globals} {d e : Nat} {t : TaskId}

/-! ## The earliest deadline -/

/-- The moment of a tick, counted from the start of the pass. -/
def moment (g : Globals) (w : UInt32) : Nat := g.passAt + (w - tick g.passAt).toNat

theorem tick_moment (g : Globals) (w : UInt32) : tick (moment g w) = w := by
  have hofNat : tick (w - tick g.passAt).toNat = w - tick g.passAt := UInt32.ofNat_toNat
  rw [moment, tick_add, hofNat, UInt32.add_comm, UInt32.sub_add_cancel]

/-- It is the first such moment in the pass. -/
theorem moment_le {due : Nat} (hdue : g.passAt ≤ due) : moment g (tick due) ≤ due := by
  rw [moment, toNat_tick_sub hdue]
  have := Nat.mod_le (due - g.passAt) (2 ^ 32)
  omega

/-- The time `mm_halow_sched_wake_at` stands for. -/
def wakeTime (g : Globals) : Nat := moment g g.wakeAt

/-- **A deadline that compares right**, where polls are at most `e` apart: it lies less than 2^31 ms after
the earliest one, and what has been polled since it was reached leaves time for the next poll. -/
def InReach (e : Nat) (g : Globals) (w : UInt32) : Prop :=
  moment g w < wakeTime g + 2 ^ 31 ∧ g.polledAt + e < moment g w + 2 ^ 31

instance (e : Nat) (g : Globals) (w : UInt32) : Decidable (InReach e g w) :=
  inferInstanceAs (Decidable (_ ∧ _))

/-- **The clock of the scheduler**: polls are at most `e` apart. -/
structure Clocked (e : Nat) (g : Globals) : Prop where
  begun : g.passAt ≤ g.now
  past : g.polledAt ≤ g.now
  recent : g.now ≤ g.polledAt + e
  polled : g.polledAt + e < wakeTime g + 2 ^ 31
  before : wakeTime g < g.passAt + 2 ^ 31

/-- **Where nothing is pending, the earliest deadline lies ahead.** -/
theorem Clocked.ahead (h : Clocked e g) (hp : pending g = false) : g.now < wakeTime g := by
  have hreached : reached (ticks g) g.wakeAt = false := (Bool.or_eq_false_iff.mp hp).2
  by_contra hle
  have h1 := h.recent
  have h2 := h.polled
  have : reached (tick g.now) (tick (wakeTime g)) = true :=
    (reached_tick (by omega) (by omega)).mpr (Nat.le_of_not_lt hle)
  rw [wakeTime, tick_moment] at this
  exact Bool.noConfusion (hreached.symm.trans this)

theorem Clocked.advance (h : Clocked e g) {dt : Nat} (hrec : g.now + dt ≤ g.polledAt + e) :
    Clocked e (advance dt g) where
  begun := Nat.le_add_right_of_le h.begun
  past := Nat.le_add_right_of_le h.past
  recent := hrec
  polled := h.polled
  before := h.before

theorem KeepsClock.wakeTime (h : KeepsClock g g') : wakeTime g' = wakeTime g := by
  unfold Sched.wakeTime moment
  rw [h.wakeAt, h.passAt]

theorem Clocked.keeps (h : Clocked e g) (he : e ≤ 2 ^ 31) (hc : KeepsClock g g') : Clocked e g' := by
  have hpast : g'.polledAt ≤ g'.now ∧ g.polledAt ≤ g'.polledAt ∧
      g'.polledAt + e < Sched.wakeTime g + 2 ^ 31 := by
    rcases hc.polledAt with hp | ⟨hpend, hp⟩
    · rw [hp, hc.now]
      exact ⟨h.past, Nat.le_refl _, h.polled⟩
    · rw [hp, hc.now]
      exact ⟨Nat.le_refl _, h.past, Nat.add_lt_add_of_lt_of_le (h.ahead hpend) he⟩
  obtain ⟨hle, hmono, hpolled⟩ := hpast
  refine ⟨?_, hle, ?_, ?_, ?_⟩
  · rw [hc.passAt, hc.now]
    exact h.begun
  · rw [hc.now]
    exact Nat.le_trans h.recent (Nat.add_le_add_right hmono e)
  · rw [hc.wakeTime]
    exact hpolled
  · rw [hc.wakeTime, hc.passAt]
    exact h.before

/-- The pass has just begun. -/
theorem Clocked.reset (pass : Nat) (he : e ≤ 2 ^ 31) :
    Clocked e (bodyStep cfg g (.resetWakeAt pass)).1 := by
  have hw : Sched.wakeTime (bodyStep cfg g (.resetWakeAt pass)).1 = g.now + int32Max.toNat := by
    show g.now + (int32Max + tick g.now - tick g.now).toNat = _
    rw [UInt32.add_sub_cancel]
  have h31 : int32Max.toNat = 2 ^ 31 - 1 := rfl
  refine ⟨Nat.le_refl _, Nat.le_refl _, Nat.le_add_right _ _, ?_, ?_⟩
  · rw [hw]
    show g.now + e < _
    omega
  · rw [hw]
    show _ < g.now + _
    omega

/-! ## Waits that last -/

/-- The wait's timeout is not over before `due`. -/
def Wait.lasts (w : Wait) (now due : Nat) : Prop := ∀ t, now ≤ t → t < due → ¬ w.over t

theorem Wait.lasts.later {w : Wait} {now now' due : Nat} (h : w.lasts now due) (hle : now ≤ now') :
    w.lasts now' due := fun t ht => h t (Nat.le_trans hle ht)

/-- **A timed park knows its deadline**: no further off than the longest wait. -/
theorem Wait.due {w : Wait} {now : Nat} (hlim : w.timeoutMs ≤ cfg.waitMaxMs) (h : ¬ w.over now) :
    ∃ due, tick due = w.start + w.timeoutMs ∧ now < due ∧ due ≤ now + cfg.waitMaxMs.toNat ∧
      w.lasts now due := by
  obtain ⟨-, due, hw, hlt, -, hlast⟩ := punctual h
  refine ⟨due, hw.symm, hlt, ?_, hlast⟩
  have hle : w.timeoutMs.toNat ≤ cfg.waitMaxMs.toNat := UInt32.le_iff_toNat_le.mp hlim
  have hnow : (tick now - w.start).toNat < w.timeoutMs.toNat := by
    unfold Wait.over at h
    rw [UInt32.le_iff_toNat_le] at h
    exact Nat.lt_of_not_le h
  by_contra hfar
  -- once what is left of the timeout has passed, it is over
  have hrest : tick (w.timeoutMs - (tick now - w.start)).toNat = w.timeoutMs - (tick now - w.start) :=
    UInt32.ofNat_toNat
  have hsoon : now + (w.timeoutMs - (tick now - w.start)).toNat < due := by
    rw [UInt32.toNat_sub_of_le _ _ (UInt32.le_iff_toNat_le.mpr (Nat.le_of_lt hnow))]
    omega
  refine hlast _ (Nat.le_add_right _ _) hsoon ?_
  show w.timeoutMs ≤ tick (now + _) - w.start
  have hover : tick now + (w.timeoutMs - (tick now - w.start)) - w.start = w.timeoutMs := by grind
  rw [tick_add, hrest, hover]
  exact UInt32.le_refl _

/-! ## Tasks that have had their turn -/

/-- The task is parked in a wait whose condition is false and whose deadline, if it is timed, is
not before the scheduler's. -/
def Settled (g : Globals) (t : TaskId) : Prop :=
  ∃ c evals w rest, (g.task t).sp = .wait c evals w :: rest ∧ w.pc = .cond ∧ w.timeoutMs ≠ 0 ∧
    c.holds g = false ∧
    (w.forever = false → g.passed = true ∧ ∃ due, wakeTime g ≤ due ∧ w.lasts g.now due)

/-- The tasks that have had their turn since the flag was cleared, where the run stands at a place;
all, where it has not been cleared. -/
def visited (l : List TaskId) : RunPc → List TaskId
  | .resetWakeAt _ => []
  | .walk _ (some t) => l.takeWhile (· ≠ t)
  | .setCur _ t => l.takeWhile (· ≠ t)
  | .resume _ t => l.takeWhile (· ≠ t)
  | .inTurn _ t => l.takeWhile (· ≠ t)
  | .clearCur _ t => l.takeWhile (· ≠ t) ++ [t]
  | _ => l

/-- The pass gives turns. -/
def RunPc.gives : RunPc → Bool
  | .walk _ _ => true
  | .setCur _ _ => true
  | .resume _ _ => true
  | .inTurn _ _ => true
  | .clearCur _ _ => true
  | _ => false

def visitedBy (l : List TaskId) (b : Option Body) : List TaskId :=
  match b with
  | none => l
  | some b => visited l b.pc

def givesBy (b : Option Body) : Bool := b.any fun b => b.pc.gives

/-- A wait parks: its condition is false, and what it leaves is its deadline. -/
structure ParkOk (cfg : Config) (g : Globals) (c : Cond) (w : Wait) (timed : Bool) (wakeAt : UInt32)
    (pc : ParkPc) : Prop where
  here : w.pc = .cond
  nonzero : w.timeoutMs ≠ 0
  holds : c.holds g = false
  kind : timed = !w.forever
  due : timed = true → ∃ due, tick due = wakeAt ∧ g.passAt < due ∧
    due ≤ g.now + cfg.waitMaxMs.toNat ∧ w.lasts g.now due ∧ ∀ t, pc = .switch t → wakeTime g ≤ due

/-- **A task in its turn**, while nothing is woken: where it is about to park, its condition is
false. -/
structure TurnOk (cfg : Config) (g : Globals) (l : List Frame) : Prop where
  wait : ∀ c evals w rest, l = .wait c evals w :: rest →
    (w.pc = .zero → c.holds g = false) ∧
      (w.pc = .teardown → c.holds g = false ∧ w.forever = true ∧ w.timeoutMs ≠ 0) ∧
      (w.pc = .elapsed → c.holds g = false ∧ w.forever = false)
  park : ∀ timed wakeAt pc rest, l = .park timed wakeAt pc :: rest →
    ∃ c evals w rest', rest = .wait c evals w :: rest' ∧ ParkOk cfg g c w timed wakeAt pc
  yields : ∀ t rest, l ≠ .yield (.switch t) :: rest
  retires : ∀ t todo rest, l ≠ .op (.retire t :: todo) :: rest

/-- The tasks of `l` are settled, and the clock is right. -/
structure Gathered (e : Nat) (g : Globals) (l : List TaskId) (gives : Bool) : Prop where
  clock : g.passed = true → Clocked e g
  passed : gives = true → g.passed = true
  settled : ∀ t ∈ l, (g.task t).state = .ready → Settled g t

/-- **Nothing has been missed**, where `b` is the run in progress. -/
structure Calm (cfg : Config) (e : Nat) (g : Globals) (b : Option Body) : Prop where
  gathered : Gathered e g (visitedBy g.taskList b) (givesBy b)
  turn : ∀ pass t fr, b = some ⟨.inTurn pass t, fr⟩ → TurnOk cfg g fr

variable {b : Option Body} {l : List Frame}

theorem Settled.advance (h : Settled g t) (dt : Nat) : Settled (advance dt g) t := by
  obtain ⟨c, evals, w, rest, hsp, hpc, hne, hc, hdue⟩ := h
  refine ⟨c, evals, w, rest, hsp, hpc, hne, hc, fun hf => ?_⟩
  obtain ⟨hp, due, hle, hlast⟩ := hdue hf
  exact ⟨hp, due, hle, hlast.later (Nat.le_add_right _ _)⟩

theorem ParkOk.advance {c : Cond} {w : Wait} {timed : Bool} {wakeAt : UInt32} {pc : ParkPc}
    (h : ParkOk cfg g c w timed wakeAt pc) (dt : Nat) :
    ParkOk cfg (advance dt g) c w timed wakeAt pc where
  here := h.here
  nonzero := h.nonzero
  holds := h.holds
  kind := h.kind
  due ht := by
    obtain ⟨due, htick, hafter, hle, hlast, hsw⟩ := h.due ht
    refine ⟨due, htick, hafter, ?_, hlast.later (Nat.le_add_right _ _), hsw⟩
    show due ≤ g.now + dt + _
    omega

theorem TurnOk.advance (h : TurnOk cfg g l) (dt : Nat) : TurnOk cfg (advance dt g) l where
  wait := h.wait
  park timed wakeAt pc rest hl := by
    obtain ⟨c, evals, w, rest', hr, hp⟩ := h.park timed wakeAt pc rest hl
    exact ⟨c, evals, w, rest', hr, hp.advance dt⟩
  yields := h.yields
  retires := h.retires

/-- Time passes. -/
theorem Gathered.advance {l : List TaskId} {gives : Bool} (h : Gathered e g l gives) {dt : Nat}
    (hrec : g.passed = true → g.now + dt ≤ g.polledAt + e) :
    Gathered e (advance dt g) l gives where
  clock hp := (h.clock hp).advance (hrec hp)
  passed := h.passed
  settled t ht hr := (h.settled t ht hr).advance dt

theorem Calm.advance (h : Calm cfg e g b) {dt : Nat}
    (hrec : g.passed = true → g.now + dt ≤ g.polledAt + e) : Calm cfg e (advance dt g) b where
  gathered := h.gathered.advance hrec
  turn pass t fr hb := (h.turn pass t fr hb).advance dt

theorem Settled.keeps (h : Settled g t) (hk : Keeps g g') (hc : KeepsClock g g') : Settled g' t := by
  obtain ⟨c, evals, w, rest, hsp, hpc, hne, hcond, hdue⟩ := h
  refine ⟨c, evals, w, rest, (hk.sp t).trans hsp, hpc, hne, hk.holds hcond, fun hf => ?_⟩
  rw [hc.passed, hc.wakeTime, hc.now]
  exact hdue hf

theorem ParkOk.keeps {c : Cond} {w : Wait} {timed : Bool} {wakeAt : UInt32} {pc : ParkPc}
    (h : ParkOk cfg g c w timed wakeAt pc) (hk : Keeps g g') (hc : KeepsClock g g') :
    ParkOk cfg g' c w timed wakeAt pc where
  here := h.here
  nonzero := h.nonzero
  holds := hk.holds h.holds
  kind := h.kind
  due ht := by
    rw [hc.passAt, hc.now, hc.wakeTime]
    exact h.due ht

theorem TurnOk.keeps (h : TurnOk cfg g l) (hk : Keeps g g') (hc : KeepsClock g g') :
    TurnOk cfg g' l where
  wait c evals w rest hl := by
    obtain ⟨hz, ht, he⟩ := h.wait c evals w rest hl
    exact ⟨fun hp => hk.holds (hz hp), fun hp => ⟨hk.holds (ht hp).1, (ht hp).2⟩,
      fun hp => ⟨hk.holds (he hp).1, (he hp).2⟩⟩
  park timed wakeAt pc rest hl := by
    obtain ⟨c, evals, w, rest', hr, hp⟩ := h.park timed wakeAt pc rest hl
    exact ⟨c, evals, w, rest', hr, hp.keeps hk hc⟩
  yields := h.yields
  retires := h.retires

theorem Gathered.keeps {l : List TaskId} {gives : Bool} (h : Gathered e g l gives)
    (he : e ≤ 2 ^ 31) (hk : Keeps g g') (hc : KeepsClock g g') : Gathered e g' l gives where
  clock hp := (h.clock (hc.passed ▸ hp)).keeps he hc
  passed hg := hc.passed.trans (h.passed hg)
  settled t ht hr := by
    rw [hk.state] at hr
    exact (h.settled t ht hr).keeps hk hc

/-- **What keeps the conditions keeps the calm.** -/
theorem Calm.keeps (h : Calm cfg e g b) (he : e ≤ 2 ^ 31) (hk : Keeps g g')
    (hc : KeepsClock g g') : Calm cfg e g' b where
  gathered := by
    rw [hk.taskList]
    exact h.gathered.keeps he hk hc
  turn pass t fr hb := (h.turn pass t fr hb).keeps hk hc

/-! ## A step in a turn -/

/-- A frame at which no task is about to leave its turn. -/
def Plain : Frame → Prop
  | .wait _ _ w => w.pc ≠ .zero ∧ w.pc ≠ .teardown ∧ w.pc ≠ .elapsed
  | .park _ _ _ => False
  | .yield pc => ∀ t, pc ≠ .switch t
  | .op todo => ∀ t, todo.head? ≠ some (.retire t)
  | _ => True

variable {f : Frame} {rest : List Frame} {mv : Move}

theorem Plain.turnOk (h : Plain f) : TurnOk cfg g (f :: rest) where
  wait c evals w rest' hl := by
    obtain ⟨rfl, -⟩ := List.cons.inj hl
    exact ⟨fun hp => absurd hp h.1, fun hp => absurd hp h.2.1, fun hp => absurd hp h.2.2⟩
  park timed wakeAt pc rest' hl := by
    obtain ⟨rfl, -⟩ := List.cons.inj hl
    exact h.elim
  yields t rest' hl := by
    obtain ⟨rfl, -⟩ := List.cons.inj hl
    exact h t rfl
  retires t todo rest' hl := by
    obtain ⟨rfl, -⟩ := List.cons.inj hl
    exact h t rfl

theorem turnOk_nil : TurnOk cfg g [] where
  wait _ _ _ _ hl := absurd hl (List.cons_ne_nil _ _).symm
  park _ _ _ _ hl := absurd hl (List.cons_ne_nil _ _).symm
  yields _ _ hl := absurd hl (List.cons_ne_nil _ _).symm
  retires _ _ _ hl := absurd hl (List.cons_ne_nil _ _).symm

theorem Resting.plain (h : Resting f) : Plain f := by
  cases f with
  | wait c evals w =>
    rcases h with h | h <;> simp [Plain, h]
  | yield pc =>
    rcases h with rfl | rfl <;> exact fun _ => YieldPc.noConfusion
  | poll => trivial
  | mutexGet => trivial
  | region => trivial
  | _ => exact h.elim

/-- Frames at rest are ready for a turn. -/
theorem turnOk_resting {l : List Frame} (h : ∀ f ∈ l, Resting f) : TurnOk cfg g l := by
  cases l with
  | nil => exact turnOk_nil
  | cons f rest => exact (h f List.mem_cons_self).plain.turnOk

theorem Call.plain (c : Call) : Plain c.frame := by
  cases c with
  | op p =>
    cases p with
    | taskDelete t => cases t <;> simp [Call.frame, Op.micros, Plain]
    | _ => simp [Call.frame, Op.micros, Plain]
  | yield => exact fun _ => YieldPc.noConfusion
  | _ => simp [Call.frame, Plain, waitOn, waitCall]

theorem microStep_plain {m : Micro} {rest : List Micro} {heap : Bool} (h : OpOk (m :: rest))
    (hm : m ≠ .wake) (t : TaskId) : (microStep cfg heap m rest g).1.head? ≠ some (.retire t) := by
  have hrest : rest.head? ≠ some (.retire t) := fun hr => hm (h.2.1 t hr)
  cases m with
  | semGive s =>
    simp only [microStep]
    split_ifs
    · exact hrest
    · exact (Option.some_ne_none _).symm
  | queuePush q item =>
    simp only [microStep]
    split_ifs
    · exact hrest
    · exact (Option.some_ne_none _).symm
  | queuePop q =>
    simp only [microStep]
    split
    · exact hrest
    · exact (Option.some_ne_none _).symm
  | deleteSelf =>
    simp only [microStep]
    split
    · exact (Option.some_ne_none _).symm
    · simp
  | retire u => exact (Option.some_ne_none _).symm
  | create =>
    simp only [microStep]
    split
    · exact (Option.some_ne_none _).symm
    · exact hrest
  | _ => exact hrest

/-- The code of a task that neither waits nor parks goes to no place where it leaves its turn,
unless it wakes the scheduler. -/
theorem frameStep_plain (hf : FrameOk cfg f) (hwait : f.isWait = false)
    (hpark : ∀ timed w pc, f ≠ .park timed w pc)
    (hw : (frameStep cfg x o g f).1.woken = false) :
    ∀ f' ∈ (frameStep cfg x o g f).2.frames, Plain f' := by
  have hone : ∀ f' : Frame, Plain f' → ∀ f'' ∈ [f'], Plain f'' :=
    fun f' h => List.forall_mem_singleton.mpr h
  have hnone : ∀ f'' ∈ ([] : List Frame), Plain f'' := fun f'' hf'' => absurd hf'' List.not_mem_nil
  cases f with
  | wait => exact Bool.noConfusion hwait
  | park timed w pc => exact absurd rfl (hpark timed w pc)
  | poll pc =>
    cases pc with
    | irqs => exact codeStep_frames Call.plain trivial (hone _ trivial)
    | timers => exact codeStep_frames Call.plain trivial (hone _ trivial)
    | initted => simp only [frameStep, pollStep]; split_ifs <;> simp [Move.frames, Plain]
    | current => simp only [frameStep, pollStep]; split_ifs <;> simp [Move.frames, Plain]
    | schedPending => simp only [frameStep, pollStep]; split_ifs <;> simp [Move.frames, Plain]
    | _ => simp [frameStep, pollStep, Move.frames, Plain]
  | yield pc =>
    cases pc with
    | woken t => exact Bool.noConfusion hw
    | hook =>
      simp only [frameStep, yieldStep]
      split_ifs
      · exact hnone
      · exact codeStep_frames Call.plain (fun _ => YieldPc.noConfusion) hnone
    | current =>
      simp only [frameStep, yieldStep]
      split <;> exact hone _ fun _ => YieldPc.noConfusion
    | claim =>
      refine hone _ ?_
      split_ifs <;> exact fun _ => YieldPc.noConfusion
    | run => exact List.forall_mem_cons.mpr ⟨trivial, hone _ fun _ => YieldPc.noConfusion⟩
    | switch t => exact hnone
    | _ => exact hone _ fun _ => YieldPc.noConfusion
  | run pc =>
    cases pc with
    | check => simp only [frameStep, runEntryStep]; split_ifs <;> simp [Move.frames, Plain]
    | set => exact hnone
  | notifyWait timeoutMs =>
    simp only [frameStep, notifyWaitStep]
    split
    · exact hnone
    · exact hone _ (by simp [Plain, waitOn, waitCall])
  | mutexGet m timeoutMs pc =>
    cases pc with
    | enter =>
      simp only [frameStep, mutexGetStep]
      split_ifs <;> simp [Move.frames, Plain, waitOn, waitCall]
    | _ => simp [frameStep, mutexGetStep, Move.frames, Plain, waitOn, waitCall]
  | op todo =>
    cases todo with
    | nil => exact hnone
    | cons m todo =>
      by_cases hm : m = .wake
      · subst hm
        exact Bool.noConfusion hw
      · cases m with
        | retire t => exact hnone
        | _ => exact hone _ (microStep_plain hf hm)
  | region pc =>
    cases pc with
    | inside => exact codeStep_frames Call.plain trivial (hone _ trivial)
    | _ => simp [frameStep, regionStep, Move.frames, Plain]

theorem turnOk_wait {c : Cond} {evals : List Bool} {w : Wait} (hzero : w.pc = .zero → c.holds g = false)
    (hteardown : w.pc = .teardown → c.holds g = false ∧ w.forever = true ∧ w.timeoutMs ≠ 0)
    (helapsed : w.pc = .elapsed → c.holds g = false ∧ w.forever = false) :
    TurnOk cfg g (.wait c evals w :: rest) where
  wait c' evals' w' rest' hl := by
    obtain ⟨hw, -⟩ := List.cons.inj hl
    obtain ⟨rfl, -, rfl⟩ := Frame.wait.inj hw
    exact ⟨hzero, hteardown, helapsed⟩
  park _ _ _ _ hl := Frame.noConfusion (List.cons.inj hl).1
  yields _ _ hl := Frame.noConfusion (List.cons.inj hl).1
  retires _ _ _ hl := Frame.noConfusion (List.cons.inj hl).1

theorem turnOk_park {c : Cond} {evals : List Bool} {w : Wait} {timed : Bool} {wakeAt : UInt32}
    {pc : ParkPc} (h : ParkOk cfg g c w timed wakeAt pc) :
    TurnOk cfg g (.park timed wakeAt pc :: .wait c evals w :: rest) where
  wait _ _ _ _ hl := Frame.noConfusion (List.cons.inj hl).1
  park timed' wakeAt' pc' rest' hl := by
    obtain ⟨hp, rfl⟩ := List.cons.inj hl
    obtain ⟨rfl, rfl, rfl⟩ := Frame.park.inj hp
    exact ⟨c, evals, w, rest, rfl, h⟩
  yields _ _ hl := Frame.noConfusion (List.cons.inj hl).1
  retires _ _ _ hl := Frame.noConfusion (List.cons.inj hl).1

/-- A frame returns to one that rests. -/
theorem turnOk_return (h : ∀ f ∈ rest, Resting f) (r : Bool) : TurnOk cfg g (returnTo r rest) := by
  refine turnOk_resting fun f hf => ?_
  cases rest with
  | nil => exact absurd hf List.not_mem_nil
  | cons f' rest =>
    rcases List.mem_cons.mp hf with rfl | hf
    · exact (h f' List.mem_cons_self).resume
    · exact h f (List.mem_cons_of_mem _ hf)

/-- **A wait in its turn** parks only where its condition has just been false. -/
theorem TurnOk.wait_step {c : Cond} {evals : List Bool} {w : Wait} {l' : List Frame}
    (h : TurnOk cfg g (.wait c evals w :: rest)) (hf : FrameOk cfg (.wait c evals w))
    (hrest : ∀ f ∈ rest, Resting f) (hbegun : g.passAt ≤ g.now)
    (hl : (waitFrame cfg g c evals w).2.onto rest = .frames l') : TurnOk cfg g l' := by
  obtain ⟨hzero, hteardown, helapsed⟩ := h.wait c evals w rest rfl
  have hnext : ∀ f', .frames (f' :: rest) = StackMove.frames l' → Plain f' → TurnOk cfg g l' :=
    fun f' he hp => StackMove.frames.inj he ▸ hp.turnOk
  have hwakes : Plain (.op [.wake]) := by simp [Plain]
  obtain ⟨timeoutMs, forever, start, counted, pc, asked⟩ := w
  cases pc with
  | cond =>
    simp only [waitFrame, waitStep] at hl
    cases hr : (evalCond cfg c g).1 with
    | true =>
      simp only [hr, true_and] at hl
      split_ifs at hl
      · exact StackMove.frames.inj hl ▸ hwakes.turnOk
      · exact hnext _ hl ⟨WaitPc.noConfusion, WaitPc.noConfusion, WaitPc.noConfusion⟩
    | false =>
      simp only [hr, Bool.false_eq_true, false_and, if_false] at hl
      obtain rfl := StackMove.frames.inj hl
      exact turnOk_wait (fun _ => (evalCond_result c).symm.trans hr) (fun hp => WaitPc.noConfusion hp)
        fun hp => WaitPc.noConfusion hp
  | recheck =>
    simp only [waitFrame, waitStep] at hl
    split_ifs at hl
    · exact StackMove.frames.inj hl ▸ hwakes.turnOk
    · exact hnext _ hl ⟨WaitPc.noConfusion, WaitPc.noConfusion, WaitPc.noConfusion⟩
  | zero =>
    have hc := hzero rfl
    by_cases ht : timeoutMs = 0
    · simp only [waitFrame, waitStep, if_pos ht] at hl
      exact hnext _ hl ⟨WaitPc.noConfusion, WaitPc.noConfusion, WaitPc.noConfusion⟩
    · simp only [waitFrame, waitStep, if_neg ht] at hl
      obtain rfl := StackMove.frames.inj hl
      cases forever with
      | true =>
        exact turnOk_wait (fun hp => WaitPc.noConfusion hp) (fun _ => ⟨hc, rfl, ht⟩)
          fun hp => WaitPc.noConfusion hp
      | false =>
        exact turnOk_wait (fun hp => WaitPc.noConfusion hp) (fun hp => WaitPc.noConfusion hp)
          fun _ => ⟨hc, rfl⟩
  | teardown =>
    obtain ⟨hc, hforever, hne⟩ := hteardown rfl
    obtain rfl : forever = true := hforever
    cases ht : g.teardown with
    | true =>
      simp only [waitFrame, waitStep, ht, if_true] at hl
      obtain rfl := StackMove.frames.inj hl
      exact turnOk_wait (fun hp => WaitPc.noConfusion hp) (fun hp => WaitPc.noConfusion hp)
        fun _ => ⟨hc, rfl⟩
    | false =>
      simp only [waitFrame, waitStep, ht] at hl
      obtain rfl := StackMove.frames.inj hl
      exact turnOk_park ⟨rfl, hne, hc, rfl, fun h => Bool.noConfusion h⟩
  | elapsed =>
    obtain ⟨hc, hforever⟩ := helapsed rfl
    obtain rfl : forever = false := hforever
    by_cases ht : timeoutMs ≤ ticks g - start
    · simp only [waitFrame, waitStep, if_pos ht] at hl
      exact hnext _ hl ⟨WaitPc.noConfusion, WaitPc.noConfusion, WaitPc.noConfusion⟩
    · simp only [waitFrame, waitStep, if_neg ht] at hl
      obtain rfl := StackMove.frames.inj hl
      have hlim : timeoutMs ≤ cfg.waitMaxMs :=
        (hf.resolve_left WaitPc.noConfusion).resolve_left Bool.noConfusion
      obtain ⟨due, htick, hafter, hle, hlast⟩ :=
        Wait.due (w := ⟨timeoutMs, false, start, counted, .cond, asked⟩) hlim ht
      have hne : timeoutMs ≠ 0 := by
        rintro rfl
        exact ht UInt32.zero_le
      exact turnOk_park ⟨rfl, hne, hc, rfl, fun _ => ⟨due, htick, Nat.lt_of_le_of_lt hbegun hafter, hle,
        hlast, fun _ h => ParkPc.noConfusion h⟩⟩
  | counted =>
    by_cases hcur : g.cur = none
    · simp only [waitFrame, waitStep, hcur, decide_true, if_true] at hl
      exact hnext _ hl ⟨WaitPc.noConfusion, WaitPc.noConfusion, WaitPc.noConfusion⟩
    · simp only [waitFrame, waitStep, decide_eq_false hcur] at hl
      exact hnext _ hl ⟨WaitPc.noConfusion, WaitPc.noConfusion, WaitPc.noConfusion⟩
  | leave r =>
    cases counted with
    | true => exact hnext _ hl ⟨WaitPc.noConfusion, WaitPc.noConfusion, WaitPc.noConfusion⟩
    | false => exact hnext _ hl ⟨WaitPc.noConfusion, WaitPc.noConfusion, WaitPc.noConfusion⟩
  | wake r =>
    cases r with
    | true => exact hnext _ hl ⟨WaitPc.noConfusion, WaitPc.noConfusion, WaitPc.noConfusion⟩
    | false => exact StackMove.frames.inj hl ▸ turnOk_return hrest false
  | done => exact StackMove.frames.inj hl ▸ turnOk_return hrest true
  | _ => exact hnext _ hl ⟨WaitPc.noConfusion, WaitPc.noConfusion, WaitPc.noConfusion⟩

/-- **A timed park gathers its deadline**: the scheduler's is not later then, and those it had taken
into account still are. -/
theorem store_deadline {c : Cond} {w : Wait} {timed : Bool} {wakeAt : UInt32} {u : TaskId}
    (hclock : Clocked e g) (hreach : timed = true → InReach e g wakeAt)
    (h : ParkOk cfg g c w timed wakeAt (.deadline u))
    (hg : (parkStep g timed wakeAt (.deadline u)).1 = g') :
    Clocked e g' ∧ (∀ t, Settled g t → Settled g' t) ∧ ParkOk cfg g' c w timed wakeAt (.switch u) := by
  cases timed with
  | false =>
    obtain rfl : g = g' := hg
    exact ⟨hclock, fun _ => id, h.here, h.nonzero, h.holds, h.kind, fun ht => Bool.noConfusion ht⟩
  | true =>
    obtain ⟨due, htick, hafter, hle, hlast, -⟩ := h.due rfl
    obtain ⟨hnear, hpolled⟩ := hreach rfl
    have hfirst : moment g wakeAt ≤ due := htick ▸ moment_le (Nat.le_of_lt hafter)
    have hpass : g.passAt ≤ moment g wakeAt := Nat.le_add_right _ _
    have hreached : reached wakeAt g.wakeAt = true ↔ wakeTime g ≤ moment g wakeAt := by
      have hbefore := hclock.before
      have := reached_tick (a := moment g wakeAt) (b := wakeTime g) hnear (by omega)
      rwa [tick_moment, wakeTime, tick_moment] at this
    by_cases hr : reached wakeAt g.wakeAt = true
    · obtain rfl : g = g' := by simpa [parkStep, hr] using hg
      exact ⟨hclock, fun _ => id, h.here, h.nonzero, h.holds, h.kind,
        fun _ => ⟨due, htick, hafter, hle, hlast, fun _ _ => Nat.le_trans (hreached.mp hr) hfirst⟩⟩
    · obtain rfl : { g with wakeAt := wakeAt } = g' := by
        simpa [parkStep, Bool.eq_false_iff.mpr hr] using hg
      have hw : wakeTime { g with wakeAt := wakeAt } = moment g wakeAt := rfl
      have hlt : moment g wakeAt < wakeTime g := Nat.lt_of_not_le fun hle => hr (hreached.mpr hle)
      refine ⟨⟨hclock.begun, hclock.past, hclock.recent, hpolled, Nat.lt_trans hlt hclock.before⟩,
        fun t hs => ?_, h.here, h.nonzero, h.holds, h.kind,
        fun _ => ⟨due, htick, hafter, hle, hlast, fun _ _ => hfirst⟩⟩
      obtain ⟨c', evals, w', rest, hsp, hpc, hne, hc, hdue⟩ := hs
      refine ⟨c', evals, w', rest, hsp, hpc, hne, ?_, fun hf => ?_⟩
      · cases c' <;> exact hc
      · obtain ⟨hpassed, due', hle', hlast'⟩ := hdue hf
        refine ⟨hpassed, due', ?_, hlast'⟩
        rw [hw]
        omega

/-- **A task in its turn stays ready to park** where its step keeps the conditions. -/
theorem TurnOk.frame_step {l' : List Frame} (h : TurnOk cfg g (f :: rest)) (hf : FrameOk cfg f)
    (hrest : ∀ f ∈ rest, Resting f) (hbegun : g.passAt ≤ g.now)
    (hd : ∀ timed w u, f ≠ .park timed w (.deadline u)) (hst : frameStep cfg x o g f = (g', mv))
    (hw : g'.woken = false) (hk : Keeps g g') (hc : KeepsClock g g')
    (hl : mv.onto rest = .frames l') : TurnOk cfg g' l' := by
  obtain rfl : (frameStep cfg x o g f).1 = g' := congrArg Prod.fst hst
  obtain rfl : (frameStep cfg x o g f).2 = mv := congrArg Prod.snd hst
  by_cases hwait : f.isWait = true
  · cases f with
    | wait c evals w => exact (h.wait_step hf hrest hbegun hl).keeps hk hc
    | _ => exact Bool.noConfusion hwait
  by_cases hpark : ∃ timed w pc, f = .park timed w pc
  · obtain ⟨timed, wakeAt, pc, rfl⟩ := hpark
    obtain ⟨c, evals, w, rest', rfl, hp⟩ := h.park _ _ _ _ rfl
    cases pc with
    | deadline u => exact absurd rfl (hd _ _ u)
    | switch u => exact StackMove.noConfusion hl
    | current =>
      simp only [frameStep, parkStep] at hl
      cases hcur : g.cur with
      | none =>
        rw [hcur] at hl
        obtain rfl := StackMove.frames.inj hl
        exact (show Plain (.yield .current) from fun _ => YieldPc.noConfusion).turnOk
      | some u =>
        rw [hcur] at hl
        obtain rfl := StackMove.frames.inj hl
        refine turnOk_park ⟨hp.here, hp.nonzero, hk.holds hp.holds, hp.kind, fun ht => ?_⟩
        obtain ⟨due, htick, hafter, hle, hlast, -⟩ := hp.due ht
        exact ⟨due, htick, hafter, hle, hlast, fun _ h => ParkPc.noConfusion h⟩
  · have hplain := frameStep_plain (x := x) (o := o) hf (Bool.eq_false_iff.mpr hwait)
      (fun timed w pc he => hpark ⟨timed, w, pc, he⟩) hw
    cases hm : (frameStep cfg x o g f).2 with
    | goto f' =>
      rw [hm] at hl hplain
      obtain rfl := StackMove.frames.inj hl
      exact (hplain f' List.mem_cons_self).turnOk
    | call f' callee =>
      rw [hm] at hl hplain
      obtain rfl := StackMove.frames.inj hl
      exact (hplain callee List.mem_cons_self).turnOk
    | ret r =>
      rw [hm] at hl
      obtain rfl := StackMove.frames.inj hl
      exact turnOk_return hrest r
    | _ =>
      rw [hm] at hl
      exact StackMove.noConfusion hl

/-- The deadline of a wait that a task in its turn is about to compare with the scheduler's. -/
def Body.deadline : Body → Option UInt32
  | ⟨.inTurn _ _, .park true w (.deadline _) :: _⟩ => some w
  | _ => none

/-- Where the run in progress is about to compare a deadline, it compares right. -/
def Gathers (e : Nat) (g : Globals) (b : Option Body) : Prop := ∀ w ∈ b.bind Body.deadline, InReach e g w

instance (e : Nat) (g : Globals) (b : Option Body) : Decidable (Gathers e g b) :=
  Option.decidableForallMem (b.bind Body.deadline)

/-- A step of a task in its turn, outside the switch. -/
theorem Calm.turn_step {pass : Nat} {l l' : List Frame} (h : Calm cfg e g (some ⟨.inTurn pass t, l⟩))
    (he : e ≤ 2 ^ 31) (hl : TailRests l) (hf : ∀ f ∈ l, FrameOk cfg f)
    (hgathers : Gathers e g (some ⟨.inTurn pass t, l⟩)) (hst : stackStep cfg x o g l = (g', .frames l')) :
    g'.woken = true ∨ l'.head?.any Frame.owes = true ∨ Calm cfg e g' (some ⟨.inTurn pass t, l'⟩) := by
  have hclock := h.gathered.clock (h.gathered.passed rfl)
  have hturn := h.turn pass t l rfl
  have hnew : ∀ {g'}, Gathered e g' (visited g'.taskList (.inTurn pass t)) true → TurnOk cfg g' l' →
      Calm cfg e g' (some ⟨.inTurn pass t, l'⟩) := by
    refine fun hg ht => ⟨hg, fun pass' t' fr hb => ?_⟩
    obtain ⟨-, rfl⟩ := Body.mk.inj (Option.some.inj hb)
    exact ht
  cases l with
  | nil =>
    obtain ⟨rfl, hmv⟩ := Prod.mk.inj hst
    cases hcall : o.call with
    | none =>
      rw [hcall] at hmv
      exact StackMove.noConfusion hmv
    | some c =>
      rw [hcall] at hmv
      obtain rfl := StackMove.frames.inj hmv
      exact Or.inr (Or.inr (hnew h.gathered c.plain.turnOk))
  | cons f rest =>
    obtain ⟨hg, hmv⟩ := Prod.mk.inj hst
    by_cases hd : ∃ timed w u, f = .park timed w (.deadline u)
    · obtain ⟨timed, wakeAt, u, rfl⟩ := hd
      obtain ⟨c, evals, w, rest', rfl, hp⟩ := hturn.park _ _ _ _ rfl
      have hreach : timed = true → InReach e g wakeAt := by
        rintro rfl
        exact hgathers wakeAt rfl
      obtain ⟨hclock', hset, hp'⟩ := store_deadline hclock hreach hp hg
      obtain rfl := StackMove.frames.inj hmv
      have hsame : g'.taskList = g.taskList ∧ g'.task = g.task ∧ g'.passed = g.passed := by
        rw [← hg]
        simp only [frameStep, parkStep]
        split_ifs <;> exact ⟨rfl, rfl, rfl⟩
      refine Or.inr (Or.inr (hnew ⟨fun _ => hclock', fun _ => ?_, fun v hv hr => ?_⟩ (turnOk_park hp')))
      · exact hsame.2.2.trans (h.gathered.passed rfl)
      · rw [hsame.1] at hv
        rw [hsame.2.1] at hr
        exact hset v (h.gathered.settled v hv hr)
    · have hd' : ∀ timed w u r, f :: rest ≠ .park timed w (.deadline u) :: r :=
        fun timed w u r he => hd ⟨timed, w, u, (List.cons.inj he).1⟩
      by_cases hw : g'.woken = true
      · exact Or.inl hw
      rcases stackStep_leaves_woken hf hd' hst with hlv | ⟨l₁, he, ho⟩ | ⟨hk, hc⟩
      · exact Or.inl hlv
      · obtain rfl := StackMove.frames.inj he
        exact Or.inr (Or.inl ho)
      · refine Or.inr (Or.inr (hnew (h.keeps he hk hc).gathered ?_))
        exact hturn.frame_step (hf f List.mem_cons_self) hl hclock.begun
          (fun timed w u he => hd ⟨timed, w, u, he⟩) (Prod.ext hg rfl) (Bool.eq_false_iff.mpr hw) hk hc hmv

/-! ## A step of a run -/

theorem holds_setSp {c : Cond} {l : List Frame} :
    c.holds (setTask g t fun k => { k with sp := l }) = c.holds g := by
  cases c with
  | notified u =>
    have : ((setTask g t fun k => { k with sp := l }).task u).notify = (g.task u).notify :=
      update_field Task.notify rfl
    simp only [Cond.holds, this]
  | isDead u =>
    have : ((setTask g t fun k => { k with sp := l }).task u).state = (g.task u).state :=
      update_field Task.state rfl
    simp only [Cond.holds, this]
  | _ => rfl

theorem Clocked.setTask {k : Task → Task} (h : Clocked e g) : Clocked e (setTask g t k) :=
  ⟨h.begun, h.past, h.recent, h.polled, h.before⟩

theorem Settled.save {u : TaskId} {l : List Frame} (h : Settled g t) (ht : t ≠ u) :
    Settled (setTask g u fun k => { k with sp := l }) t := by
  obtain ⟨c, evals, w, rest, hsp, hpc, hne, hc, hdue⟩ := h
  exact ⟨c, evals, w, rest, by rw [setTask_other ht, hsp], hpc, hne, holds_setSp.trans hc, hdue⟩

/-- **A task that leaves its turn is settled**, where nothing has been woken. -/
theorem Calm.switch {pass : Nat} {fr rest : List Frame}
    (h : Calm cfg e g (some ⟨.inTurn pass t, fr⟩)) (hst : stackStep cfg x o g fr = (g', .switch t rest)) :
    Calm cfg e (setTask g' t fun k => { k with sp := rest }) (some ⟨.clearCur pass t, []⟩) := by
  have hturn := h.turn pass t fr rfl
  have hl : (stackStep cfg x o g fr).2.leaves = some t := by rw [hst]; rfl
  obtain ⟨f, rest', rfl, hf⟩ := stackStep_leaves hl
  rcases frameStep_leaves hf with rfl | ⟨timed, w, rfl⟩ | ⟨todo, rfl⟩
  · exact absurd rfl (hturn.yields t rest')
  · obtain ⟨hg, hr⟩ := Prod.mk.inj hst
    obtain rfl : g = g' := hg
    obtain ⟨-, rfl⟩ := StackMove.switch.inj hr
    obtain ⟨c, evals, wt, rest, rfl, hp⟩ := hturn.park _ _ _ _ rfl
    refine ⟨⟨fun hp => (h.gathered.clock hp).setTask, h.gathered.passed, fun u hu hready => ?_⟩,
      fun _ _ _ hb => ?_⟩
    · by_cases hut : u = t
      · subst hut
        refine ⟨c, evals, wt, rest, by rw [setTask_self], hp.here, hp.nonzero,
          holds_setSp.trans hp.holds, fun hforever => ?_⟩
        obtain ⟨due, -, -, -, hlast, hle⟩ := hp.due (by rw [hp.kind, hforever]; rfl)
        exact ⟨h.gathered.passed rfl, due, hle u rfl, hlast⟩
      · rcases List.mem_append.mp hu with hu | hu
        · rw [setTask_other hut] at hready
          exact (h.gathered.settled u hu hready).save hut
        · exact absurd (List.mem_singleton.mp hu) hut
    · exact RunPc.noConfusion (Body.mk.inj (Option.some.inj hb)).1
  · exact absurd rfl (hturn.retires t todo rest')

/-- The tasks before the next one have had their turn. -/
theorem visited_next {pass : Nat} {l : List TaskId} {u : TaskId}
    (h : u ∈ visited l (.walk pass (nextTask l t))) : u ∈ l.takeWhile (· ≠ t) ++ [t] := by
  induction l with
  | nil => exact absurd h List.not_mem_nil
  | cons v l ih =>
    by_cases hv : v = t
    · subst hv
      rw [List.takeWhile_cons_of_neg (by simp), List.nil_append, List.mem_singleton]
      cases l with
      | nil => simpa [visited, nextTask] using h
      | cons n l =>
        have hn : nextTask (v :: n :: l) v = some n := by simp [nextTask]
        rw [hn] at h
        by_cases hvn : v = n
        · subst hvn
          simp [visited] at h
        · simpa [visited, hvn] using h
    · have hnext : nextTask (v :: l) t = nextTask l t := by simp [nextTask, hv]
      rw [hnext] at h
      rw [List.takeWhile_cons_of_pos (by simpa using hv), List.cons_append, List.mem_cons]
      by_cases huv : u = v
      · exact Or.inl huv
      · refine Or.inr (ih ?_)
        cases hn : nextTask l t with
        | none =>
          rw [hn] at h
          exact (List.mem_cons.mp h).resolve_left huv
        | some n =>
          rw [hn] at h
          by_cases hvn : v = n
          · subst hvn
            simp [visited] at h
          · have : u ∈ v :: l.takeWhile (· ≠ n) := by simpa [visited, hvn] using h
            exact (List.mem_cons.mp this).resolve_left huv

/-- The run is about to gather the deadlines afresh. -/
def Cleared (b : Option Body) : Prop := ∃ pass fr, b = some ⟨.resetWakeAt pass, fr⟩

/-- Where a run stands outside the turns, and gives none that it did not, the calm goes on. -/
theorem Calm.goes {pc pc' : RunPc} {fr fr' : List Frame} (h : Calm cfg e g (some ⟨pc, fr⟩))
    (he : e ≤ 2 ^ 31) (hk : Keeps g g') (hc : KeepsClock g g')
    (hv : ∀ t ∈ visited g'.taskList pc', t ∈ visited g.taskList pc ∨ (g.task t).state = .dead)
    (hgives : pc'.gives = true → pc.gives = true)
    (hturn : ∀ pass t, pc' = .inTurn pass t → TurnOk cfg g' fr') :
    Calm cfg e g' (some ⟨pc', fr'⟩) where
  gathered :=
    { clock := (h.gathered.keeps he hk hc).clock
      passed := fun hg => (h.gathered.keeps he hk hc).passed (hgives hg)
      settled := by
        intro t ht hr
        rcases hv t ht with hv | hdead
        · exact (h.gathered.keeps he hk hc).settled t hv hr
        · rw [hk.state, hdead] at hr
          exact TaskState.noConfusion hr }
  turn pass t fr₁ hb := by
    obtain ⟨hpc, rfl⟩ := Body.mk.inj (Option.some.inj hb)
    exact hturn pass t hpc

/-- **A pass begins**: no task has had its turn, and no deadline has been gathered. -/
theorem Calm.reset (pass : Nat) (he : e ≤ 2 ^ 31) :
    Calm cfg e (bodyStep cfg g (.resetWakeAt pass)).1 (bodyStep cfg g (.resetWakeAt pass)).2 := by
  refine ⟨⟨fun _ => Clocked.reset pass he, fun _ => rfl, fun t ht hr => ?_⟩,
    fun _ _ _ hb => RunPc.noConfusion (Body.mk.inj (Option.some.inj hb)).1⟩
  have hv : t ∈ visited g.taskList (.walk pass g.taskList.head?) := ht
  cases hl : g.taskList with
  | nil =>
    rw [hl] at hv
    exact absurd hv List.not_mem_nil
  | cons u l =>
    rw [hl] at hv
    simp [visited] at hv

/-- The dead tasks leave the list. -/
theorem Calm.reap {fr fr' : List Frame} (h : Calm cfg e g (some ⟨.reap, fr⟩)) :
    Calm cfg e (Sched.reap g) (some ⟨.finish, fr'⟩) := by
  have hstate : ∀ t, ((Sched.reap g).task t).state = (g.task t).state := by
    intro t
    simp only [Sched.reap]
    split_ifs <;> rfl
  have hnotify : ∀ t, ((Sched.reap g).task t).notify = (g.task t).notify := by
    intro t
    simp only [Sched.reap]
    split_ifs <;> rfl
  refine ⟨⟨fun hp => ?_, fun hg => Bool.noConfusion hg, fun t ht hr => ?_⟩,
    fun _ _ _ hb => RunPc.noConfusion (Body.mk.inj (Option.some.inj hb)).1⟩
  · have hc := h.gathered.clock hp
    exact ⟨hc.begun, hc.past, hc.recent, hc.polled, hc.before⟩
  · rw [hstate] at hr
    obtain ⟨c, evals, w, rest, hsp, hpc, hne, hc, hdue⟩ :=
      h.gathered.settled t (List.mem_filter.mp ht).1 hr
    refine ⟨c, evals, w, rest, (reap_sp g t).trans hsp, hpc, hne, ?_, hdue⟩
    cases c with
    | notified u => simpa only [Cond.holds, hnotify] using hc
    | isDead u => simpa only [Cond.holds, hstate] using hc
    | _ => exact hc

/-- **A step of `mm_halow_sched_run` outside a turn.** -/
theorem Calm.body_step {pc : RunPc} {fr : List Frame} (h : Calm cfg e g (some ⟨pc, fr⟩))
    (he : e ≤ 2 ^ 31) (hsaved : ∀ t, ∀ f ∈ (g.task t).sp, Resting f)
    (hpc : ∀ pass t, pc ≠ .inTurn pass t) :
    (bodyStep cfg g pc).1.woken = true ∨ Cleared (bodyStep cfg g pc).2 ∨
      Calm cfg e (bodyStep cfg g pc).1 (bodyStep cfg g pc).2 := by
  have hk := Keeps.refl g
  cases pc with
  | inTurn pass t => exact absurd rfl (hpc pass t)
  | clearWoken pass => exact Or.inr (Or.inl ⟨pass, [], rfl⟩)
  | deadline =>
    exact Or.inr (Or.inr (h.goes he { hk with } ⟨rfl, rfl, rfl, rfl, Or.inl rfl⟩
      (fun t ht => Or.inl ht) id fun _ _ hb => RunPc.noConfusion hb))
  | passTest pass =>
    refine Or.inr (Or.inr (h.goes he hk (.refl g) (fun t ht => Or.inl ?_) (fun hg => ?_)
      fun _ _ hb => ?_))
    · split_ifs at ht <;> exact ht
    · split_ifs at hg <;> exact hg
    · split_ifs at hb
  | resetWakeAt pass => exact Or.inr (Or.inr (.reset pass he))
  | walk pass u =>
    cases u with
    | none =>
      exact Or.inr (Or.inr (h.goes he hk (.refl g) (fun t ht => Or.inl ht)
        (fun hg => Bool.noConfusion hg) fun _ _ hb => RunPc.noConfusion hb))
    | some u =>
      by_cases hr : (g.task u).state = .ready
      · simp only [bodyStep, if_pos hr]
        exact Or.inr (Or.inr (h.goes he hk (.refl g) (fun t ht => Or.inl ht) id
          fun _ _ hb => RunPc.noConfusion hb))
      · simp only [bodyStep, if_neg hr]
        refine Or.inr (Or.inr (h.goes he hk (.refl g) (fun t ht => ?_) id
          fun _ _ hb => RunPc.noConfusion hb))
        rcases List.mem_append.mp (visited_next ht) with ht | ht
        · exact Or.inl ht
        · right
          obtain rfl := List.mem_singleton.mp ht
          cases hs : (g.task t).state with
          | ready => exact absurd hs hr
          | dead => rfl
  | setCur pass t =>
    exact Or.inr (Or.inr (h.goes he { hk with } ⟨rfl, rfl, rfl, rfl, Or.inl rfl⟩
      (fun t ht => Or.inl ht) id fun _ _ hb => RunPc.noConfusion hb))
  | resume pass t =>
    exact Or.inr (Or.inr (h.goes he hk (.refl g) (fun t ht => Or.inl ht) id
      fun _ _ _ => turnOk_resting (hsaved t)))
  | clearCur pass t =>
    exact Or.inr (Or.inr (h.goes he { hk with } ⟨rfl, rfl, rfl, rfl, Or.inl rfl⟩
      (fun t ht => Or.inl (visited_next ht)) id fun _ _ hb => RunPc.noConfusion hb))
  | passEnd pass =>
    by_cases hw : g.woken = true
    · exact Or.inl hw
    · simp only [bodyStep, hw]
      exact Or.inr (Or.inr (h.goes he hk (.refl g) (fun t ht => Or.inl ht) id
        fun _ _ hb => RunPc.noConfusion hb))
  | reap => exact Or.inr (Or.inr h.reap)
  | finish =>
    refine Or.inr (Or.inr ⟨?_, fun _ _ _ hb => absurd hb (Option.some_ne_none _).symm⟩)
    exact h.gathered.keeps he { hk with } ⟨rfl, rfl, rfl, rfl, Or.inl rfl⟩

/-! ## A step of a context -/

theorem bodyStep_woken {pc : RunPc} (hpc : ∀ pass, pc ≠ .clearWoken pass) (h : g.woken = true) :
    (bodyStep cfg g pc).1.woken = true := by
  cases pc with
  | clearWoken pass => exact absurd rfl (hpc pass)
  | walk pass t => cases t <;> exact h
  | _ => exact h

/-- The scheduler is woken or about to be, or the deadlines are about to be gathered afresh, or
nothing has been missed. -/
def Watched (cfg : Config) (e : Nat) (g : Globals) (owes : Bool) (b : Option Body) : Prop :=
  g.woken = true ∨ owes = true ∨ Cleared b ∨ Calm cfg e g b

variable {other : Option Body} {c : Context} {c' : Option Context}

variable {owes : Bool}

theorem Watched.woken (h : g.woken = true) : Watched cfg e g owes b := Or.inl h

theorem Watched.calm (h : Calm cfg e g b) : Watched cfg e g owes b := Or.inr (Or.inr (Or.inr h))

theorem Watched.advance (h : Watched cfg e g owes b) {dt : Nat}
    (hrec : g.passed = true → g.now + dt ≤ g.polledAt + e) : Watched cfg e (advance dt g) owes b := by
  rcases h with hw | ho | hc | h
  · exact Or.inl hw
  · exact Or.inr (Or.inl ho)
  · exact Or.inr (Or.inr (Or.inl hc))
  · exact .calm (h.advance hrec)

/-- Only who owes a wake matters beside the scheduler's state. -/
theorem Watched.mono {owes' : Bool} (h : Watched cfg e g owes b) (hle : owes = true → owes' = true) :
    Watched cfg e g owes' b := by
  rcases h with hw | ho | hc | h
  · exact Or.inl hw
  · exact Or.inr (Or.inl (hle ho))
  · exact Or.inr (Or.inr (Or.inl hc))
  · exact .calm h

/-- The flag stays up until the run clears it. -/
theorem watched_of_woken (hw : g.woken = true) (hs : c.step cfg x o g = (g', c')) :
    Watched cfg e g' (c'.getD idle).owes ((c'.getD idle).body.or other) := by
  cases Context.step_cases hs with
  | stuck => exact .woken hw
  | @body pc fr hb hpc =>
    by_cases hclear : ∃ pass, pc = .clearWoken pass
    · obtain ⟨pass, rfl⟩ := hclear
      exact Or.inr (Or.inr (Or.inl ⟨pass, [], rfl⟩))
    · exact .woken (bodyStep_woken (fun pass he => hclear ⟨pass, he⟩) hw)
  | switch _ hst =>
    have hw' := stackStep_woken hst hw
    exact .woken hw'
  | retire _ hst =>
    have hw' := stackStep_woken hst hw
    exact .woken hw'
  | _ => exact .woken (stackStep_woken (by assumption) hw)

/-- What a context owes it makes good. -/
theorem watched_of_owes (hctl : CtxOk g other c) (ho : c.owes = true)
    (hs : c.step cfg x o g = (g', c')) :
    Watched cfg e g' (c'.getD idle).owes ((c'.getD idle).body.or other) := by
  have hnone : c.body = none → c.frames.head?.any Frame.owes = true := by
    intro hb
    rwa [Context.owes, Context.executing, hb] at ho
  have hsome : ∀ b', c.body = some b' → b'.frames.head?.any Frame.owes = true := by
    intro b' hb
    rwa [Context.owes, Context.executing, hb] at ho
  cases Context.step_cases hs with
  | stuck => exact Or.inr (Or.inl ho)
  | frames hb hst => exact .woken (stackStep_owing hst (hnone hb))
  | enter hb hst => exact .woken (stackStep_owing hst (hnone hb))
  | finished hb hst => exact .woken (stackStep_owing hst (hnone hb))
  | turn hb hst => exact .woken (stackStep_owing hst (hsome _ hb))
  | returned hb hst => exact .woken (stackStep_owing hst (hsome _ hb))
  | switch hb hst =>
    have hw := stackStep_owing hst (hsome _ hb)
    exact .woken hw
  | retire hb hst =>
    have hw := stackStep_owing hst (hsome _ hb)
    exact .woken hw
  | @body pc fr hb hpc =>
    -- outside a turn a run has no frames
    have hok := hctl.body _ hb
    have hfr := hsome _ hb
    cases pc with
    | inTurn pass t => exact absurd rfl (hpc pass t)
    | _ =>
      obtain rfl : fr = [] := hok
      exact Bool.noConfusion hfr

/-- **One step of a context keeps the watch.** -/
theorem Watched.step (hctl : CtxOk g other c) (hf : c.All (FrameOk cfg))
    (hsaved : ∀ t, ∀ f ∈ (g.task t).sp, Resting f) (hrest : ∀ b', c.body = some b' → TailRests b'.frames)
    (hd : c.body = none → ∀ timed w u rest, c.frames ≠ .park timed w (.deadline u) :: rest)
    (he : e ≤ 2 ^ 31)
    (hgathers : Calm cfg e g (c.body.or other) → Gathers e g (c.body.or other))
    (h : Watched cfg e g c.owes (c.body.or other)) (hs : c.step cfg x o g = (g', c')) :
    Watched cfg e g' (c'.getD idle).owes ((c'.getD idle).body.or other) := by
  rcases h with hw | ho | ⟨pass, fr, hb⟩ | h
  · exact watched_of_woken hw hs
  · exact watched_of_owes hctl ho hs
  · cases hbody : c.body with
    | none =>
      rw [hbody, Option.none_or] at hb
      cases Context.step_cases hs with
      | frames => exact Or.inr (Or.inr (Or.inl ⟨pass, fr, hb⟩))
      | finished => exact Or.inr (Or.inr (Or.inl ⟨pass, fr, hb⟩))
      | stuck => exact Or.inr (Or.inr (Or.inl ⟨pass, fr, by rw [Option.getD_some, hbody]; exact hb⟩))
      | enter _ hst =>
        have := hctl.entering hbody ((stackStep_enter hst).1 ▸ List.mem_cons_self)
        exact absurd (this.symm.trans hb) (Option.some_ne_none _).symm
      | _ => exact absurd (hbody.symm.trans (by assumption)) (Option.some_ne_none _).symm
    | some b' =>
      rw [hbody, Option.some_or] at hb
      obtain rfl := Option.some.inj hb
      have hbody' : ∀ {pass' t fr'}, c.body ≠ some ⟨.inTurn pass' t, fr'⟩ := fun he =>
        RunPc.noConfusion (Body.mk.inj (Option.some.inj (hbody.symm.trans he))).1
      cases Context.step_cases hs with
      | stuck => exact Or.inr (Or.inr (Or.inl ⟨pass, fr, by rw [Option.getD_some, hbody]; rfl⟩))
      | turn he => exact absurd he hbody'
      | returned he => exact absurd he hbody'
      | switch he => exact absurd he hbody'
      | retire he => exact absurd he hbody'
      | body hpc =>
        obtain ⟨rfl, -⟩ := Body.mk.inj (Option.some.inj (hbody.symm.trans hpc))
        exact .calm (Calm.reset pass he)
      | _ => exact absurd (hbody.symm.trans (by assumption)) (Option.some_ne_none _)
  · cases Context.step_cases hs with
    | stuck => exact .calm h
    | frames hb hst =>
      rw [hb, Option.none_or] at h
      rcases stackStep_leaves_woken hf.frames (hd hb) hst with hw | ⟨l', he, ho⟩ | ⟨hk, hc⟩
      · exact .woken hw
      · obtain rfl := StackMove.frames.inj he
        exact Or.inr (Or.inl ho)
      · exact .calm (h.keeps he hk hc)
    | enter hb hst =>
      obtain ⟨hl, rfl⟩ := stackStep_enter hst
      obtain rfl := hctl.entering hb (hl ▸ List.mem_cons_self)
      rw [hb] at h
      refine .calm ⟨?_, fun _ _ _ he => RunPc.noConfusion (Body.mk.inj (Option.some.inj he)).1⟩
      exact h.gathered.keeps he { Keeps.refl g with } ⟨rfl, rfl, rfl, rfl, Or.inl rfl⟩
    | finished hb hst =>
      rw [hb, Option.none_or] at h
      rcases stackStep_leaves_woken hf.frames (hd hb) hst with hw | ⟨l', he, ho⟩ | ⟨hk, hc⟩
      · exact .woken hw
      · exact StackMove.noConfusion he
      · exact .calm (h.keeps he hk hc)
    | @turn g' pass t fr l hb hst =>
      replace hgathers := hgathers h
      rw [hb, Option.some_or] at h hgathers
      rcases h.turn_step he (hrest _ hb) (hf.body _ hb) hgathers hst with hw | ho | hc
      · exact .woken hw
      · exact Or.inr (Or.inl ho)
      · exact .calm hc
    | @returned g' pass t fr hb hst =>
      rw [hb, Option.some_or] at h
      obtain rfl : g = g' := by
        cases fr with
        | nil => exact (Prod.mk.inj hst).1
        | cons f rest =>
          have hmv : (frameStep cfg x o g f).2.onto rest = .finished := (Prod.mk.inj hst).2
          cases hm : (frameStep cfg x o g f).2 <;> rw [hm] at hmv <;> exact StackMove.noConfusion hmv
      refine .calm ⟨h.gathered, fun pass' t' fr' he => ?_⟩
      obtain ⟨-, rfl⟩ := Body.mk.inj (Option.some.inj he)
      exact (show Plain (.op (Op.taskDelete none).micros) by simp [Plain, Op.micros]).turnOk
    | switch hb hst =>
      rw [hb, Option.some_or] at h
      exact .calm (h.switch hst)
    | @retire g' pass t fr hb hst =>
      rw [hb, Option.some_or] at h
      have hturn := h.turn pass t fr rfl
      have hl : (stackStep cfg x o g fr).2.leaves = some t := by rw [hst]; rfl
      obtain ⟨f, rest, rfl, hfl⟩ := stackStep_leaves hl
      rcases frameStep_leaves hfl with rfl | ⟨timed, w, rfl⟩ | ⟨todo, rfl⟩
      · exact absurd rfl (hturn.yields t rest)
      · exact StackMove.noConfusion (Prod.mk.inj hst).2
      · exact absurd rfl (hturn.retires t todo rest)
    | body hb hpc =>
      obtain rfl : other = none := hctl.one.resolve_left fun h => Option.some_ne_none _ (hb.symm.trans h)
      rw [hb, Option.some_or] at h
      rw [Option.getD_some, Option.or_none]
      rcases h.body_step he hsaved hpc with hw | hcl | hc
      · exact .woken hw
      · exact Or.inr (Or.inr (Or.inl hcl))
      · exact .calm hc

/-! ## A step of the machine -/

/-- The run in progress, in whichever context. -/
def Machine.body (s : Machine) : Option Body := (s.pendsv.bind Context.body).or s.thread.body

/-- The current task is that of the run in progress. -/
theorem Control.cur {s : Machine} (h : Control s) : s.g.cur = bodyCur s.body := by
  unfold Control at h
  unfold Machine.body
  cases hp : s.pendsv with
  | none =>
    rw [hp] at h
    exact h.cur.trans (Option.or_none)
  | some c =>
    rw [hp] at h
    rcases h.1.one with hc | ht
    · rw [h.1.cur, Option.bind_some, hc]
      rfl
    · rw [h.1.cur, Option.bind_some, ht, Option.or_none]
      exact Option.or_none

/-- PendSV is about to park the thread's task; it goes no further. -/
def Taken (s : Machine) : Prop :=
  ∃ c timed w t rest, s.pendsv = some c ∧ c.body = none ∧ bodyCur s.thread.body ≠ none ∧
    (c.frames = .park timed w (.deadline t) :: rest ∨ c.frames = .park timed w (.switch t) :: rest)

/-- **No wake is lost**: the scheduler is woken or about to be, or nothing has been missed. -/
def Noted (cfg : Config) (e : Nat) (s : Machine) : Prop :=
  Taken s ∨ Watched cfg e s.g s.owes s.body

/-- The milliseconds that pass before an event. -/
def Event.dt : Event → Nat
  | .isrStep o => o.dt
  | .pendsv o => o.dt
  | .thread o => o.dt
  | _ => 0

/-- The scheduler is polled at least once every 2^31 ms: no more have passed since it was last found to have
nothing to do, or a pass began. -/
def PolledInTime (s : Machine) (ev : Event) : Prop :=
  s.g.passed = true → s.g.now + ev.dt ≤ s.g.polledAt + 2 ^ 31

instance (s : Machine) (ev : Event) : Decidable (PolledInTime s ev) :=
  inferInstanceAs (Decidable (_ → _))

/-- The event comes at most `e` ms after the scheduler was last polled, and in a turn at most `d` ms
after its pass began. -/
structure Timely (d e : Nat) (s : Machine) (ev : Event) : Prop where
  polled : s.g.passed = true → s.g.now + ev.dt ≤ s.g.polledAt + e
  turn : s.g.cur ≠ none → s.g.now + ev.dt ≤ s.g.passAt + d

instance (d e : Nat) (s : Machine) (ev : Event) : Decidable (Timely d e s ev) :=
  decidable_of_iff ((s.g.passed = true → s.g.now + ev.dt ≤ s.g.polledAt + e) ∧
    (s.g.cur ≠ none → s.g.now + ev.dt ≤ s.g.passAt + d)) ⟨fun h => ⟨h.1, h.2⟩, fun h => ⟨h.1, h.2⟩⟩

variable {s u : Machine} {ev : Event}

theorem Taken.step (h : Taken s) (hs : Step cfg s ev u) : Taken u := by
  obtain ⟨c, timed, w, t, rest, hp, hb, hcur, hfr⟩ := h
  cases hs.cases with
  | isr => exact ⟨c, timed, w, t, rest, hp, hb, hcur, hfr⟩
  | isrDone => exact ⟨c, timed, w, t, rest, hp, hb, hcur, hfr⟩
  | isrStep => exact ⟨c, timed, w, t, rest, hp, hb, hcur, hfr⟩
  | dispatch _ hn => exact absurd (hn.symm.trans hp) (Option.some_ne_none c).symm
  | thread _ hn => exact absurd (hn.symm.trans hp) (Option.some_ne_none c).symm
  | @pendsv o c₁ g' c' _ hp' hc =>
    obtain rfl := Option.some.inj (hp'.symm.trans hp)
    rcases hfr with hfr | hfr
    · have hst : ∃ g₁, c₁.step cfg .irq o (advance o.dt s.g) =
          (g₁, some ⟨.park timed w (.switch t) :: rest, none⟩) := by
        simp [Context.step, hb, stackStep, hfr, frameStep, parkStep, Move.onto]
      obtain ⟨g₁, hst⟩ := hst
      obtain ⟨-, rfl⟩ := Prod.mk.inj (hst.symm.trans hc)
      exact ⟨_, timed, w, t, rest, rfl, rfl, hcur, Or.inr rfl⟩
    · have hst : c₁.step cfg .irq o (advance o.dt s.g) = (advance o.dt s.g, some c₁) := by
        simp [Context.step, hb, stackStep, hfr, frameStep, parkStep, Move.onto]
      obtain ⟨-, rfl⟩ := Prod.mk.inj (hst.symm.trans hc)
      exact ⟨c₁, timed, w, t, rest, rfl, hb, hcur, Or.inr hfr⟩

/-- An interrupt's operation goes on. -/
theorem Watched.micro {m : Micro} {todo : List Micro} {heap owes' : Bool}
    (h : Watched cfg e g owes b) (he : e ≤ 2 ^ 31) (hok : OpOk (m :: todo))
    (howes : owes = true → m = .wake ∨ owes' = true) :
    Watched cfg e (microStep cfg heap m todo g).2
      (owesWake (microStep cfg heap m todo g).1 || owes') b := by
  rcases h with hw | ho | hc | h
  · exact .woken (microStep_woken m todo heap hw)
  · rcases howes ho with rfl | ho
    · exact .woken rfl
    · exact Or.inr (Or.inl (by rw [ho, Bool.or_true]))
  · exact Or.inr (Or.inr (Or.inl hc))
  · rcases (microStep_keeps hok).2 with hw | ho | ⟨hk, hc⟩
    · exact .woken hw
    · exact Or.inr (Or.inl (by rw [ho, Bool.true_or]))
    · exact .calm (h.keeps he hk hc)

/-- A frame about to store a deadline outside a run's turn is PendSV's, in a turn of the thread. -/
theorem Aside.taken {c : Context} {timed : Bool} {w : UInt32} {rest : List Frame} (h : Aside s)
    (hp : s.pendsv = some c) (hb : c.body = none) (hfr : c.frames = .park timed w (.deadline t) :: rest) :
    Taken s := by
  refine ⟨c, timed, w, t, rest, hp, hb, fun hcur => ?_, Or.inl hfr⟩
  exact h.pendsv c hp hcur _ (hfr ▸ List.mem_cons_self)

/-- **Every step keeps that no wake is lost.** -/
theorem Noted.step (hf : Framed cfg s) (h : Noted cfg e s) (he : e ≤ 2 ^ 31)
    (hpolled : s.g.passed = true → s.g.now + ev.dt ≤ s.g.polledAt + e)
    (hgathers : Calm cfg e (advance ev.dt s.g) s.body → Gathers e s.g s.body) (hs : Step cfg s ev u) :
    Noted cfg e u := by
  by_cases htaken : Taken s
  · exact Or.inl (htaken.step hs)
  replace h := h.resolve_left htaken
  refine Or.inr ?_
  have hctl := hf.control
  unfold Control at hctl
  cases hs.cases with
  | isr =>
    refine h.mono fun ho => ?_
    simp only [Machine.owes, Bool.or_eq_true, List.any_cons] at ho ⊢
    rcases ho with (ho | ho) | ho <;> simp [ho]
  | dispatch _ hp =>
    have hbody : s.body = Machine.body { s with pendsv := some idle } := by
      simp only [Machine.body, hp]
      rfl
    rw [hbody] at h
    refine h.mono fun ho => ?_
    simp only [Machine.owes, hp, Bool.or_eq_true] at ho ⊢
    rcases ho with ho | ho
    · exact Or.inl ho
    · exact Bool.noConfusion ho
  | isrDone hi =>
    refine (h.advance hpolled).mono fun ho => ?_
    simpa only [Machine.owes, hi, List.any_cons, owesWake, List.head?_nil, reduceCtorEq, decide_false,
      Bool.false_or] using ho
  | @isrStep o m todo rest hi =>
    have hok : OpOk (m :: todo) := hf.isrs _ (hi ▸ List.mem_cons_self)
    have hadv : Watched cfg e (advance o.dt s.g) s.owes s.body := h.advance hpolled
    have hm : Watched cfg e (microStep cfg o.heap m todo (advance o.dt s.g)).2
        (owesWake (microStep cfg o.heap m todo (advance o.dt s.g)).1 ||
          (rest.any owesWake || s.thread.owes || s.pendsv.any Context.owes)) s.body := by
      refine hadv.micro he hok fun ho => ?_
      simp only [Machine.owes, hi, List.any_cons, Bool.or_assoc] at ho
      rcases Bool.or_eq_true_iff.mp ho with ho | ho
      · exact Or.inl (by simpa [owesWake] using ho)
      · exact Or.inr (by rwa [Bool.or_assoc])
    refine hm.mono fun ho => ?_
    simpa only [Machine.owes, List.any_cons, Bool.or_assoc] using ho
  | @pendsv o c g' c' hi hp hc =>
    rw [hp] at hctl
    have hbody : s.body = c.body.or s.thread.body := by simp only [Machine.body, hp, Option.bind_some]
    rw [hbody] at h
    by_cases hto : s.thread.owes = true
    · exact Or.inr (Or.inl (by simp only [Machine.owes, hto, Bool.or_true, Bool.true_or]))
    have hw : Watched cfg e (advance o.dt s.g) c.owes (c.body.or s.thread.body) := by
      refine (h.advance hpolled).mono fun ho => ?_
      simpa [Machine.owes, hi, hp, hto] using ho
    have hd : c.body = none → ∀ timed w u rest, c.frames ≠ .park timed w (.deadline u) :: rest :=
      fun hb timed w u rest hfr => htaken (hf.aside.taken hp hb hfr)
    have hstep := hw.step (hctl.1.advance o.dt) (hf.frames.pendsv c hp) hf.rests.saved
      (fun b' => hf.rests.pendsv c b' hp) hd he (hbody ▸ hgathers) hc
    cases c' with
    | none => exact hstep.mono fun ho => Bool.noConfusion ho
    | some c' =>
      refine hstep.mono fun ho => ?_
      simp only [Machine.owes, Option.any_some, Option.getD_some] at ho ⊢
      rw [ho, Bool.or_true]
  | @thread o g' c' hi hp hc =>
    rw [hp] at hctl
    have hbody : s.body = s.thread.body.or none := by
      simp only [Machine.body, hp, Option.bind_none, Option.none_or, Option.or_none]
    rw [hbody] at h
    have hw : Watched cfg e (advance o.dt s.g) s.thread.owes (s.thread.body.or none) := by
      refine (h.advance hpolled).mono fun ho => ?_
      simpa [Machine.owes, hi, hp] using ho
    have hd : s.thread.body = none →
        ∀ timed w u rest, s.thread.frames ≠ .park timed w (.deadline u) :: rest :=
      fun _ timed w u rest hfr =>
        hf.aside.thread (.park timed w (.deadline u)) (hfr ▸ List.mem_cons_self)
    have hstep := hw.step (hctl.advance o.dt) hf.frames.thread hf.rests.saved hf.rests.thread hd he
      (hbody ▸ hgathers) hc
    have hu : (c'.getD idle).body.or none =
        Machine.body { s with g := g', thread := c'.getD idle } := by
      simp only [Machine.body, hp, Option.bind_none, Option.none_or, Option.or_none]
    rw [hu] at hstep
    refine hstep.mono fun ho => ?_
    simp only [Machine.owes, ho, Bool.or_true, Bool.true_or]

/-! ## Passes that are left out -/

/-- **A pass would find the task where the last one left it**: parked in a wait whose condition is
false, and whose deadline, if it is timed, has not been reached. -/
def WaitsOn (cfg : Config) (g : Globals) (t : TaskId) : Prop :=
  ∃ c evals w rest, (g.task t).sp = .wait c evals w :: rest ∧ w.pc = .cond ∧ w.timeoutMs ≠ 0 ∧
    (evalCond cfg c { g with cur := some t }).1 = false ∧ (w.forever = false → ¬ w.over g.now)

variable {now : Nat} {mutex : Nat → Mutex} {sem : Nat → Sem} {semb : Nat → Bool}
  {queue : Nat → Queue} {tr : List Event}

theorem Noted.boot : Noted cfg e (boot (bootGlobals now mutex sem semb queue)) :=
  Or.inr (.calm ⟨⟨fun hp => Bool.noConfusion hp, fun hg => Bool.noConfusion hg,
    fun _ ht => absurd ht List.not_mem_nil⟩, fun _ _ _ hb => absurd hb (Option.some_ne_none _).symm⟩)

/-- While `mm_halow_sched_running` is clear, no context is inside a run. -/
theorem Control.no_run (h : Control s) (hrun : s.g.running = false) :
    s.body = none ∧ s.thread.body = none := by
  unfold Control at h
  cases hp : s.pendsv with
  | none =>
    rw [hp] at h
    have hr : s.g.running = (s.thread.body.isSome || false) := h.running
    have ht : s.thread.body = none := by simpa [hrun] using hr.symm
    exact ⟨by simp [Machine.body, hp, ht], ht⟩
  | some c =>
    rw [hp] at h
    have hr := h.1.running
    rw [hrun] at hr
    obtain ⟨hc, ht⟩ := Bool.or_eq_false_iff.mp hr.symm
    have hc : c.body = none := by simpa using hc
    have ht : s.thread.body = none := by simpa using ht
    exact ⟨by simp [Machine.body, hp, hc, ht], ht⟩

/-- Outside runs and operations nothing has been missed. -/
theorem Noted.watched (h : Noted cfg e s) (hf : Framed cfg s) (hrun : s.g.running = false)
    (howes : s.owes = false) : Watched cfg e s.g false none := by
  obtain ⟨hbody, hthread⟩ := hf.control.no_run hrun
  rcases h with ⟨c, timed, w, t, rest, -, -, hcur, -⟩ | hw
  · rw [hthread] at hcur
    exact absurd rfl hcur
  · rwa [hbody, howes] at hw

/-- What nothing pending says of the tasks. -/
theorem Watched.waits (h : Watched cfg e g false none) (hp : pending g = false) :
    ∀ t ∈ g.taskList, (g.task t).state = .ready → WaitsOn cfg g t := by
  rcases h with hw | ho | ⟨pass, fr, hcl⟩ | hc
  · rw [pending, hw, Bool.true_or] at hp
    exact Bool.noConfusion hp
  · exact Bool.noConfusion ho
  · exact absurd hcl (Option.some_ne_none _).symm
  · intro t ht hr
    obtain ⟨c, evals, w, rest, hsp, hpc, hne, hcond, hdue⟩ := hc.gathered.settled t ht hr
    refine ⟨c, evals, w, rest, hsp, hpc, hne, ?_, fun hforever hover => ?_⟩
    · rw [evalCond_result]
      cases c <;> exact hcond
    · obtain ⟨hpassed, due, hle, hlast⟩ := hdue hforever
      have hahead := (hc.gathered.clock hpassed).ahead hp
      exact hlast g.now (Nat.le_refl _) (Nat.lt_of_lt_of_le hahead hle) hover

/-- **No wake-up is lost** where deadlines compare right: while no run is in progress and no operation is
about to wake, as long as nothing is pending every ready task is parked in a wait whose condition is false
and whose deadline has not been reached. -/
theorem no_wake_lost
    (h : Run (fun s ev u => Step cfg s ev u ∧ PolledInTime s ev ∧ Gathers (2 ^ 31) s.g s.body)
      (boot (bootGlobals now mutex sem semb queue)) tr s)
    (hrun : s.g.running = false) (howes : s.owes = false) (hp : pending s.g = false) :
    ∀ t ∈ s.g.taskList, (s.g.task t).state = .ready → WaitsOn cfg s.g t := by
  have hnoted : Framed cfg s ∧ Noted cfg (2 ^ 31) s :=
    h.inv (I := fun s => Framed cfg s ∧ Noted cfg (2 ^ 31) s) ⟨.boot, .boot⟩
      fun s ev u ⟨hf, hn⟩ ⟨hs, hpolled, hgathers⟩ =>
        ⟨hf.step hs, hn.step hf (Nat.le_refl _) hpolled (fun _ => hgathers) hs⟩
  exact (hnoted.2.watched hnoted.1 hrun howes).waits hp

/-- Polled in time, and where a deadline is compared it compares right. -/
def stepInTime (s : Machine) (ev : Event) : Option Machine :=
  if PolledInTime s ev ∧ Gathers (2 ^ 31) s.g s.body then step .defaults s ev else none

/-- A task parks in a wait of 100 ms, and 99 ms later an interrupt polls the scheduler. -/
def parkTimed : List Event :=
  .thread (calling (.op .taskCreate)) :: List.replicate 3 (.thread go) ++
    (.thread (calling .run) :: List.replicate 9 (.thread go)) ++
    (.thread (calling (.semWait 0 100)) :: List.replicate 14 (.thread go)) ++
    [.isr .pending, .isrStep { go with dt := 99 }, .isrStep go]

/-- No run or wake is under way and nothing is pending, and task 0 is on the list, ready. -/
def skipsPass (s : Machine) : Bool :=
  !s.g.running && !s.owes && !pending s.g && 0 ∈ s.g.taskList && (s.g.task 0).state = .ready

theorem no_wake_lost_parked : ∃ s,
    Run (fun s ev u => Step .defaults s ev u ∧ PolledInTime s ev ∧ Gathers (2 ^ 31) s.g s.body)
      bootBare parkTimed s ∧ WaitsOn .defaults s.g 0 := by
  have hfold : (parkTimed.foldlM stepInTime bootBare).any skipsPass = true := by decide +kernel
  obtain ⟨s, hs, hp⟩ : ∃ s,
      Run (fun s ev u => Step .defaults s ev u ∧ PolledInTime s ev ∧ Gathers (2 ^ 31) s.g s.body)
        bootBare parkTimed s ∧ skipsPass s = true :=
    Run.ofFold_any (fun s ev u h => by
      obtain ⟨hintime, hs⟩ := Option.ite_none_right_eq_some.mp h
      exact ⟨hs, hintime⟩) hfold
  simp only [skipsPass, Bool.and_eq_true, Bool.not_eq_true', decide_eq_true_eq] at hp
  obtain ⟨⟨⟨⟨hrun, howes⟩, hpend⟩, hmem⟩, hready⟩ := hp
  exact ⟨s, hs, no_wake_lost hs hrun howes hpend 0 hmem hready⟩

/-- Two tasks: the first one parks in a wait of 1 ms, the second one, after it has run for 2^31 - 5000 ms,
in a wait of 10 s. -/
def parkLate : List Event :=
  [(calling (.op .taskCreate), 3), (calling (.op .taskCreate), 3), (calling .run, 9),
    (calling (.semWait 0 1), 13), ({ calling (.semWait 0 10000) with dt := 2 ^ 31 - 5000 }, 14)].flatMap
    fun x => .thread x.1 :: List.replicate x.2 (.thread go)

/-- The task is parked in a timed wait that is over. -/
def overdue (g : Globals) (t : TaskId) : Bool :=
  match (g.task t).sp with
  | .wait _ _ w :: _ => !w.forever && decide (w.timeoutMs ≤ tick g.now - w.start)
  | _ => false

theorem not_waitsOn_of_overdue (h : overdue g t = true) : ¬ WaitsOn cfg g t := by
  rintro ⟨c, evals, w, rest, hsp, -, -, -, hover⟩
  rw [overdue, hsp] at h
  obtain ⟨hforever, hdue⟩ := Bool.and_eq_true_iff.mp h
  have hdue : w.timeoutMs ≤ tick g.now - w.start := of_decide_eq_true hdue
  exact hover ((Bool.not_eq_true' _).mp hforever) hdue

/-- **A deadline is missed** although the scheduler is polled in time: the one of the first task has been
reached, and nothing is pending. -/
theorem deadline_missed : ¬ ∀ (cfg : Config) (now : Nat) (mutex : Nat → Mutex) (sem : Nat → Sem)
    (semb : Nat → Bool) (queue : Nat → Queue) (tr : List Event) (s : Machine),
    Run (fun s ev u => Step cfg s ev u ∧ PolledInTime s ev) (boot (bootGlobals now mutex sem semb queue)) tr s →
      s.g.running = false → s.owes = false → pending s.g = false →
        ∀ t ∈ s.g.taskList, (s.g.task t).state = .ready → WaitsOn cfg s.g t := by
  intro h
  have hfold : (parkLate.foldlM (fun s ev => if PolledInTime s ev then step .defaults s ev else none)
      bootBare).any (fun s => skipsPass s && overdue s.g 0) = true := by decide +kernel
  obtain ⟨s, hs, hp⟩ : ∃ s, Run (fun s ev u => Step .defaults s ev u ∧ PolledInTime s ev) bootBare parkLate s ∧
      (skipsPass s && overdue s.g 0) = true :=
    Run.ofFold_any (fun s ev u h => by
      obtain ⟨hpolled, hs⟩ := Option.ite_none_right_eq_some.mp h
      exact ⟨hs, hpolled⟩) hfold
  obtain ⟨hskips, hover⟩ := Bool.and_eq_true_iff.mp hp
  simp only [skipsPass, Bool.and_eq_true, Bool.not_eq_true', decide_eq_true_eq] at hskips
  obtain ⟨⟨⟨⟨hrun, howes⟩, hpend⟩, hmem⟩, hready⟩ := hskips
  exact not_waitsOn_of_overdue hover (h .defaults _ _ _ _ _ _ s hs hrun howes hpend 0 hmem hready)

/-! ## Timely runs -/

theorem Body.deadline_eq {b : Body} {w : UInt32} (h : b.deadline = some w) :
    ∃ pass t u rest, b = ⟨.inTurn pass t, .park true w (.deadline u) :: rest⟩ := by
  unfold Body.deadline at h
  split at h
  · obtain rfl := Option.some.inj h
    exact ⟨_, _, _, _, rfl⟩
  · exact absurd h.symm (Option.some_ne_none w)

/-- **In a timely turn a deadline compares right.** -/
theorem Calm.gathers (h : Calm cfg e g b) (hde : d + e + cfg.waitMaxMs.toNat < 2 ^ 31)
    (hturn : bodyCur b ≠ none → g.now ≤ g.passAt + d) : Gathers e g b := by
  intro w hw
  obtain ⟨b', rfl, hdeadline⟩ := Option.bind_eq_some_iff.mp hw
  obtain ⟨pass, t, u, rest, rfl⟩ := Body.deadline_eq hdeadline
  obtain ⟨c, evals, wt, rest', -, hp⟩ := (h.turn pass t _ rfl).park true w _ _ rfl
  obtain ⟨due, rfl, hafter, hle, -⟩ := hp.due rfl
  have hclock := h.gathered.clock (h.gathered.passed rfl)
  have hpast := hclock.past
  have hnow := hturn (Option.some_ne_none t)
  have hfirst : moment g (tick due) ≤ due := moment_le (Nat.le_of_lt hafter)
  have hpass : g.passAt ≤ moment g (tick due) := Nat.le_add_right _ _
  have hwake : g.passAt ≤ wakeTime g := Nat.le_add_right _ _
  constructor <;> omega

/-- The invariants along a timely run. -/
theorem noted_run (hde : d + e + cfg.waitMaxMs.toNat < 2 ^ 31)
    (h : Run (fun s ev u => Step cfg s ev u ∧ Timely d e s ev)
      (boot (bootGlobals now mutex sem semb queue)) tr s) : Framed cfg s ∧ Noted cfg e s := by
  refine h.inv (I := fun s => Framed cfg s ∧ Noted cfg e s) ⟨.boot, .boot⟩ fun s ev u hi hs => ?_
  obtain ⟨hf, hn⟩ := hi
  obtain ⟨hs, htimely⟩ := hs
  refine ⟨hf.step hs, hn.step hf (by omega) htimely.polled (fun hcalm => ?_) hs⟩
  exact hcalm.gathers hde fun hcur => htimely.turn (hf.control.cur ▸ hcur)

/-- A timely step. -/
def stepTimely (d e : Nat) (s : Machine) (ev : Event) : Option Machine :=
  if Timely d e s ev then step .defaults s ev else none

theorem stepTimely_timely (h : stepTimely d e s ev = some u) :
    Step .defaults s ev u ∧ Timely d e s ev := by
  obtain ⟨ht, hs⟩ := Option.ite_none_right_eq_some.mp h
  exact ⟨hs, ht⟩

end MmHalow.Sched
