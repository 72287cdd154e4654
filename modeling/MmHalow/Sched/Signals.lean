import MmHalow.Sched.Objects

/-!
# Semaphores, binary semaphores and notifications

The record of effects counts what was given and what waits took; the objects agree with it.

* `SemOk`, `NotifyOk`, `SembOk`: the account of one object.
* `signals_rule`: every evaluation and operation keeps the accounts.
* `signal_accounts`: **in every run, whoever gives, notifies and waits, nothing is lost: counts are
  gives minus takes, a wait that gives up has taken nothing and one that succeeds one token.**
-/

namespace MmHalow.Sched

open MmHalow.Lib MmHalow.Osal

variable {cfg : Config} {g : Globals} {i : Nat} {t : TaskId}

/-! ## Counting semaphores -/

/-- The semaphore `i`, created with `initial` of at most `max`. -/
structure SemOk (i : Nat) (max initial : UInt32) (g : Globals) : Prop where
  maxCount : (g.sem i).maxCount = max
  count : (g.sem i).count.toNat + g.log.count (.semTaken i) =
    initial.toNat + g.log.count (.semGiven i)
  le : (g.sem i).count ≤ max

variable {max initial : UInt32}

/-- What concerns neither the semaphore nor its record. -/
theorem SemOk.other {g' : Globals} (h : SemOk i max initial g) (hs : g'.sem i = g.sem i)
    (ht : g'.log.count (.semTaken i) = g.log.count (.semTaken i))
    (hg : g'.log.count (.semGiven i) = g.log.count (.semGiven i)) : SemOk i max initial g' :=
  ⟨by rw [hs]; exact h.maxCount, by rw [hs, ht, hg]; exact h.count, by rw [hs]; exact h.le⟩

theorem SemOk.effect {g' : Globals} {e : Effect} (h : SemOk i max initial g)
    (hs : g'.sem i = g.sem i) (hlog : g'.log = e :: g.log) (ht : e ≠ .semTaken i)
    (hg : e ≠ .semGiven i) : SemOk i max initial g' := by
  refine h.other hs ?_ ?_
  · rw [hlog, List.count_cons_of_ne ht]
  · rw [hlog, List.count_cons_of_ne hg]

theorem SemOk.given {j : Nat} (h : SemOk i max initial g)
    (hp : (Osal.semGive (g.sem j)).1 = true) : SemOk i max initial { g with
      sem := Function.update g.sem j (Osal.semGive (g.sem j)).2, log := .semGiven j :: g.log } := by
  by_cases hj : j = i
  · subst hj
    have hlt : (g.sem j).count < (g.sem j).maxCount := by
      unfold Osal.semGive at hp
      split_ifs at hp with hlt
      exact hlt
    have hlt' := UInt32.lt_iff_toNat_lt.mp hlt
    have hmax := (g.sem j).maxCount.toNat_lt
    have hadd : ((g.sem j).count + 1).toNat = (g.sem j).count.toNat + 1 := by
      rw [UInt32.toNat_add]
      simp only [UInt32.reduceToNat]
      omega
    have hc := h.count
    constructor
    · simpa [Osal.semGive, hlt] using h.maxCount
    · simp only [Osal.semGive, hlt, if_true, Function.update_self, List.count_cons_self, hadd]
      rw [List.count_cons_of_ne (by simp)]
      omega
    · simp only [Osal.semGive, hlt, if_true, Function.update_self]
      rw [UInt32.le_iff_toNat_le, hadd, ← h.maxCount]
      exact hlt'
  · exact h.effect (Function.update_of_ne (Ne.symm hj) _ _) rfl nofun fun he => hj (by injection he)

theorem SemOk.taken {j : Nat} (h : SemOk i max initial g)
    (hp : (Osal.semTaken (g.sem j)).1 = true) : SemOk i max initial { g with
      sem := Function.update g.sem j (Osal.semTaken (g.sem j)).2, log := .semTaken j :: g.log } := by
  by_cases hj : j = i
  · subst hj
    have hlt : 0 < (g.sem j).count := by
      unfold Osal.semTaken at hp
      split_ifs at hp with hlt
      exact hlt
    have hlt' : 0 < (g.sem j).count.toNat := UInt32.lt_iff_toNat_lt.mp hlt
    have hsub : ((g.sem j).count - 1).toNat = (g.sem j).count.toNat - 1 :=
      UInt32.toNat_sub_of_le _ _ (UInt32.le_iff_toNat_le.mpr hlt')
    have hc := h.count
    constructor
    · simpa [Osal.semTaken, hlt] using h.maxCount
    · simp only [Osal.semTaken, hlt, if_true, Function.update_self, List.count_cons_self, hsub]
      rw [List.count_cons_of_ne (by simp)]
      omega
    · simp only [Osal.semTaken, hlt, if_true, Function.update_self]
      have hle := UInt32.le_iff_toNat_le.mp h.le
      rw [UInt32.le_iff_toNat_le, hsub]
      omega
  · exact h.effect (Function.update_of_ne (Ne.symm hj) _ _) rfl (fun he => hj (by injection he)) nofun

/-! ## Notifications -/

/-- What took effect since the slot `t` last got a new task. -/
def sinceCreated (t : TaskId) (log : List Effect) : List Effect := log.takeWhile (· ≠ .created t)

/-- The notifications to `t` since it was created. -/
def notifies (t : TaskId) (log : List Effect) : Nat := (sinceCreated t log).count (.notified t)

/-- The successful waits of `t` for a notification since it was created. -/
def notificationsTaken (t : TaskId) (log : List Effect) : Nat :=
  (sinceCreated t log).count (.notificationTaken t)

/-- The pending notifications of `t`, modulo the width of the counter. -/
structure NotifyOk (t : TaskId) (g : Globals) : Prop where
  le : notificationsTaken t g.log ≤ notifies t g.log
  eq : (g.task t).notify = UInt32.ofNat (notifies t g.log - notificationsTaken t g.log)

/-- An effect that concerns `t` neither as a notification nor as its creation. -/
theorem counts_other {e : Effect} (hn : e ≠ .notified t) (ht : e ≠ .notificationTaken t)
    (hc : e ≠ .created t) (log : List Effect) :
    notifies t (e :: log) = notifies t log ∧
      notificationsTaken t (e :: log) = notificationsTaken t log := by
  unfold notifies notificationsTaken sinceCreated
  rw [List.takeWhile_cons_of_pos (by simpa using hc), List.count_cons_of_ne hn,
    List.count_cons_of_ne ht]
  exact ⟨rfl, rfl⟩

theorem NotifyOk.effect {g' : Globals} {e : Effect} (h : NotifyOk t g)
    (hs : (g'.task t).notify = (g.task t).notify) (hlog : g'.log = e :: g.log)
    (hn : e ≠ .notified t) (ht : e ≠ .notificationTaken t) (hc : e ≠ .created t) :
    NotifyOk t g' := by
  obtain ⟨h1, h2⟩ := counts_other hn ht hc g.log
  exact ⟨by rw [hlog, h1, h2]; exact h.le, by rw [hs, hlog, h1, h2]; exact h.eq⟩

theorem NotifyOk.other {g' : Globals} (h : NotifyOk t g)
    (hs : (g'.task t).notify = (g.task t).notify) (hlog : g'.log = g.log) : NotifyOk t g' :=
  ⟨by rw [hlog]; exact h.le, by rw [hs, hlog]; exact h.eq⟩

theorem NotifyOk.notified {u : TaskId} (h : NotifyOk t g) : NotifyOk t
    { setTask g u fun k => { k with notify := taskNotify k.notify } with
      log := .notified u :: g.log } := by
  by_cases hu : u = t
  · subst hu
    have hn : notifies u (.notified u :: g.log) = notifies u g.log + 1 := by
      unfold notifies sinceCreated
      rw [List.takeWhile_cons_of_pos (by simp), List.count_cons_self]
    have ht : notificationsTaken u (.notified u :: g.log) = notificationsTaken u g.log := by
      unfold notificationsTaken sinceCreated
      rw [List.takeWhile_cons_of_pos (by simp), List.count_cons_of_ne (by simp)]
    have hle := h.le
    constructor
    · simp only [hn, ht]
      omega
    · simp only [hn, ht, setTask_self, taskNotify]
      rw [h.eq, Nat.sub_add_comm hle, UInt32.ofNat_add]
      rfl
  · refine h.effect ?_ rfl (fun he => hu (by injection he)) nofun nofun
    simp only [setTask_other (Ne.symm hu)]

theorem NotifyOk.taken {u : TaskId} (h : NotifyOk t g) (hp : (g.task u).notify ≠ 0) : NotifyOk t
    { setTask g u fun k => { k with notify := (g.task u).notify - 1 } with
      log := .notificationTaken u :: g.log } := by
  by_cases hu : u = t
  · subst hu
    have hn : notifies u (.notificationTaken u :: g.log) = notifies u g.log := by
      unfold notifies sinceCreated
      rw [List.takeWhile_cons_of_pos (by simp), List.count_cons_of_ne (by simp)]
    have ht : notificationsTaken u (.notificationTaken u :: g.log) =
        notificationsTaken u g.log + 1 := by
      unfold notificationsTaken sinceCreated
      rw [List.takeWhile_cons_of_pos (by simp), List.count_cons_self]
    have hlt : notificationsTaken u g.log < notifies u g.log := by
      refine Nat.lt_of_le_of_ne h.le fun he => hp ?_
      rw [h.eq, he, Nat.sub_self]
      rfl
    obtain ⟨d, hd⟩ : ∃ d, notifies u g.log - notificationsTaken u g.log = d + 1 :=
      ⟨notifies u g.log - notificationsTaken u g.log - 1, by omega⟩
    constructor
    · simp only [hn, ht]
      exact hlt
    · simp only [hn, ht, setTask_self]
      rw [h.eq, hd, show notifies u g.log - (notificationsTaken u g.log + 1) = d by omega,
        UInt32.ofNat_add]
      exact UInt32.add_sub_cancel _ _
  · refine h.effect ?_ rfl nofun (fun he => hu (by injection he)) nofun
    simp only [setTask_other (Ne.symm hu)]

theorem NotifyOk.created {g' : Globals} {heap : Bool} (h : NotifyOk t g)
    (hc : taskCreate cfg heap g = some g') : NotifyOk t g' := by
  obtain ⟨u, -, rfl⟩ := taskCreate_cases hc
  by_cases hu : u = t
  · subst hu
    have hz : sinceCreated u (.created u :: g.log) = [] :=
      List.takeWhile_cons_of_neg (by simp)
    constructor
    · simp [notifies, notificationsTaken, hz]
    · simp [notifies, notificationsTaken, hz]
  · refine h.effect ?_ rfl nofun nofun fun he => hu (by injection he)
    simp only [Function.update_of_ne (Ne.symm hu)]

/-! ## Binary semaphores -/

/-- The last give of, or successful wait on, the binary semaphore `i`. -/
def lastSemb (i : Nat) (log : List Effect) : Option Effect :=
  log.find? fun e => e = .sembGiven i ∨ e = .sembTaken i

/-- The binary semaphore is signalled where a give was last. -/
def SembOk (i : Nat) (g : Globals) : Prop :=
  g.semb i = true ↔ lastSemb i g.log = some (.sembGiven i)

theorem SembOk.effect {g' : Globals} {e : Effect} (h : SembOk i g) (hs : g'.semb i = g.semb i)
    (hlog : g'.log = e :: g.log) (hg : e ≠ .sembGiven i) (ht : e ≠ .sembTaken i) : SembOk i g' := by
  unfold SembOk lastSemb at h ⊢
  rw [hs, hlog, List.find?_cons_of_neg (by simp [hg, ht])]
  exact h

theorem SembOk.other {g' : Globals} (h : SembOk i g) (hs : g'.semb i = g.semb i)
    (hlog : g'.log = g.log) : SembOk i g' := by
  unfold SembOk at h ⊢
  rw [hs, hlog]
  exact h

theorem SembOk.given {j : Nat} (h : SembOk i g) : SembOk i { g with
    semb := Function.update g.semb j (Osal.sembGive (g.semb j)), log := .sembGiven j :: g.log } := by
  by_cases hj : j = i
  · subst hj
    unfold SembOk lastSemb
    rw [List.find?_cons_of_pos (by simp)]
    simp [Osal.sembGive]
  · exact h.effect (Function.update_of_ne (Ne.symm hj) _ _) rfl (fun he => hj (by injection he)) nofun

theorem SembOk.taken {j : Nat} (h : SembOk i g) : SembOk i { g with
    semb := Function.update g.semb j false, log := .sembTaken j :: g.log } := by
  by_cases hj : j = i
  · subst hj
    unfold SembOk lastSemb
    rw [List.find?_cons_of_pos (by simp)]
    simp
  · exact h.effect (Function.update_of_ne (Ne.symm hj) _ _) rfl nofun fun he => hj (by injection he)

/-! ## All accounts -/

/-- The accounts of all objects; semaphore `i` was created with `initialCount i` of
`maxCount i`. -/
structure SignalsOk (maxCount initialCount : Nat → UInt32) (g : Globals) : Prop where
  sem : ∀ i, initialCount i ≤ maxCount i → SemOk i (maxCount i) (initialCount i) g
  notify : ∀ t, NotifyOk t g
  semb : ∀ i, SembOk i g

variable {maxCount initialCount : Nat → UInt32}

theorem SignalsOk.other {g' : Globals} (h : SignalsOk maxCount initialCount g) (hs : g'.sem = g.sem)
    (hn : ∀ t, (g'.task t).notify = (g.task t).notify) (hb : g'.semb = g.semb)
    (hl : g'.log = g.log) : SignalsOk maxCount initialCount g' where
  sem i hi := (h.sem i hi).other (by rw [hs]) (by rw [hl]) (by rw [hl])
  notify t := (h.notify t).other (hn t) hl
  semb i := (h.semb i).other (by rw [hb]) hl

/-- An effect on a queue. -/
theorem SignalsOk.queue {g' : Globals} {e : Effect} (h : SignalsOk maxCount initialCount g)
    (hs : g'.sem = g.sem) (hn : g'.task = g.task) (hb : g'.semb = g.semb) (hl : g'.log = e :: g.log)
    (he : (∃ q item, e = .pushed q item) ∨ ∃ q item, e = .popped q item) :
    SignalsOk maxCount initialCount g' := by
  rcases he with ⟨q, item, rfl⟩ | ⟨q, item, rfl⟩
  · exact ⟨fun i hi => (h.sem i hi).effect (by rw [hs]) hl nofun nofun,
      fun t => (h.notify t).effect (by rw [hn]) hl nofun nofun nofun,
      fun i => (h.semb i).effect (by rw [hb]) hl nofun nofun⟩
  · exact ⟨fun i hi => (h.sem i hi).effect (by rw [hs]) hl nofun nofun,
      fun t => (h.notify t).effect (by rw [hn]) hl nofun nofun nofun,
      fun i => (h.semb i).effect (by rw [hb]) hl nofun nofun⟩

theorem SignalsOk.cond (c : Cond) (h : SignalsOk maxCount initialCount g) :
    SignalsOk maxCount initialCount (evalCond cfg c g).2 := by
  cases c with
  | notified u =>
    simp only [evalCond, taskNotified]
    by_cases hp : (g.task u).notify ≠ 0
    · simp only [if_pos hp, if_true]
      exact ⟨fun i hi => (h.sem i hi).effect rfl rfl Effect.noConfusion Effect.noConfusion, fun t => (h.notify t).taken hp,
        fun i => (h.semb i).effect rfl rfl Effect.noConfusion Effect.noConfusion⟩
    · simp only [if_neg hp, Bool.false_eq_true, if_false]
      exact h
  | mutexAcquired m => exact h.other rfl (fun _ => rfl) rfl rfl
  | semTaken s =>
    simp only [evalCond]
    split_ifs with hp
    · exact ⟨fun i hi => (h.sem i hi).taken hp,
        fun t => (h.notify t).effect rfl rfl Effect.noConfusion Effect.noConfusion Effect.noConfusion,
        fun i => (h.semb i).effect rfl rfl Effect.noConfusion Effect.noConfusion⟩
    · exact h
  | sembTaken s =>
    cases hp : g.semb s with
    | true =>
      simp only [evalCond, Osal.sembTaken, hp, if_true]
      exact ⟨fun i hi => (h.sem i hi).effect rfl rfl Effect.noConfusion Effect.noConfusion,
        fun t => (h.notify t).effect rfl rfl Effect.noConfusion Effect.noConfusion Effect.noConfusion, fun i => (h.semb i).taken⟩
    | false =>
      simp only [evalCond, Osal.sembTaken, hp, Bool.false_eq_true, if_false]
      exact h.other rfl (fun _ => rfl) (hp ▸ Function.update_eq_self s g.semb) rfl
  | queuePopped q =>
    simp only [evalCond]
    split
    · exact h.queue rfl rfl rfl rfl (Or.inr ⟨_, _, rfl⟩)
    · exact h
  | queuePushed q item =>
    simp only [evalCond]
    split_ifs
    · exact h.queue rfl rfl rfl rfl (Or.inl ⟨_, _, rfl⟩)
    · exact h
  | isDead t => exact h

theorem SignalsOk.micro (m : Micro) (rest : List Micro) (heap : Bool)
    (h : SignalsOk maxCount initialCount g) :
    SignalsOk maxCount initialCount (microStep cfg heap m rest g).2 := by
  cases m with
  | notify u =>
    exact ⟨fun i hi => (h.sem i hi).effect rfl rfl Effect.noConfusion Effect.noConfusion, fun t => (h.notify t).notified,
      fun i => (h.semb i).effect rfl rfl Effect.noConfusion Effect.noConfusion⟩
  | sembGive s =>
    exact ⟨fun i hi => (h.sem i hi).effect rfl rfl Effect.noConfusion Effect.noConfusion,
      fun t => (h.notify t).effect rfl rfl Effect.noConfusion Effect.noConfusion Effect.noConfusion, fun i => (h.semb i).given⟩
  | semGive s =>
    simp only [microStep]
    split_ifs with hp
    · exact ⟨fun i hi => (h.sem i hi).given hp,
        fun t => (h.notify t).effect rfl rfl Effect.noConfusion Effect.noConfusion Effect.noConfusion,
        fun i => (h.semb i).effect rfl rfl Effect.noConfusion Effect.noConfusion⟩
    · exact h
  | queuePush q item =>
    simp only [microStep]
    split_ifs
    · exact h.queue rfl rfl rfl rfl (Or.inl ⟨_, _, rfl⟩)
    · exact h
  | queuePop q =>
    simp only [microStep]
    split
    · exact h.queue rfl rfl rfl rfl (Or.inr ⟨_, _, rfl⟩)
    · exact h
  | markDead u => exact h.other rfl (fun t => update_field Task.notify rfl) rfl rfl
  | deleteSelf =>
    simp only [microStep]
    split <;> exact h
  | create =>
    simp only [microStep]
    split
    · exact h
    · next hc =>
      refine ⟨fun i hi => ?_, fun t => (h.notify t).created hc, fun i => ?_⟩
      · obtain ⟨t, -, rfl⟩ := taskCreate_cases hc
        exact (h.sem i hi).effect rfl rfl Effect.noConfusion Effect.noConfusion
      · obtain ⟨t, -, rfl⟩ := taskCreate_cases hc
        exact (h.semb i).effect rfl rfl Effect.noConfusion Effect.noConfusion
  | pending =>
    simp only [microStep]
    split_ifs <;> exact h.other rfl (fun _ => rfl) rfl rfl
  | _ => exact h.other rfl (fun _ => rfl) rfl rfl

/-- **Evaluations and operations keep the accounts.** -/
theorem signals_rule : ObjectRule cfg (SignalsOk maxCount initialCount) where
  objects _ _ ho h := h.other (congrArg Objects.sem ho) (congrFun (congrArg Objects.notify ho))
    (congrArg Objects.semb ho) (congrArg Objects.log ho)
  cond c _ h := h.cond c
  micro m rest heap _ h := h.micro m rest heap

/-! ## Every run -/

/-- The token that a wait on a signal takes. -/
def Cond.token : Cond → Option Effect
  | .notified t => some (.notificationTaken t)
  | .semTaken s => some (.semTaken s)
  | .sembTaken s => some (.sembTaken s)
  | _ => none

/-- **Signals are accounted for.** -/
structure SignalAccounts (cfg : Config) (maxCount initialCount : Nat → UInt32) (s : Machine) :
    Prop where
  /-- A counting semaphore counts gives minus takes, and stays in its range. -/
  sem : ∀ i, initialCount i ≤ maxCount i →
    (s.g.sem i).count.toNat + s.g.log.count (.semTaken i) =
        (initialCount i).toNat + s.g.log.count (.semGiven i) ∧
      (s.g.sem i).count ≤ maxCount i
  /-- A task's notifications since its creation minus those it took are pending, while fewer than
  `2 ^ 32` are. -/
  notify : ∀ t, notificationsTaken t s.g.log ≤ notifies t s.g.log ∧
    (notifies t s.g.log - notificationsTaken t s.g.log < 2 ^ 32 →
      (s.g.task t).notify.toNat = notifies t s.g.log - notificationsTaken t s.g.log)
  /-- A wait on a binary semaphore is satisfied exactly where a give came after the last successful
  wait. -/
  semb : ∀ i, (evalCond cfg (.sembTaken i) s.g).1 = true ↔
    lastSemb i s.g.log = some (.sembGiven i)
  /-- Then the next evaluation of a wait satisfies it, whatever its timeout. -/
  semb_wait : ∀ i evals w, lastSemb i s.g.log = some (.sembGiven i) → w.pc = .cond ∨ w.pc = .recheck →
    (waitFrame cfg s.g (.sembTaken i) evals w).2 =
      .goto (.wait (.sembTaken i) (true :: evals) { w with pc := .leave true })
  /-- An evaluation that gives true takes one token, one that gives false changes nothing. -/
  takes : ∀ c e, c.token = some e → if (evalCond cfg c s.g).1
    then (evalCond cfg c s.g).2.log = e :: s.g.log else (evalCond cfg c s.g).2 = s.g
  /-- A wait returns what its last evaluation gave, and no evaluation before gave true. -/
  waits : AllFrames (ReturnsLast cfg) s

variable {s : Machine}

theorem evalCond_takes {c : Cond} {e : Effect} (hc : c.token = some e) :
    if (evalCond cfg c g).1 then (evalCond cfg c g).2.log = e :: g.log
    else (evalCond cfg c g).2 = g := by
  cases c with
  | notified t =>
    obtain rfl := Option.some.inj hc
    by_cases hp : (taskNotified (g.task t).notify).1 = true
    · simp only [evalCond, if_pos hp, if_true]
    · simp only [evalCond, if_neg hp, Bool.false_eq_true, if_false]
  | semTaken s =>
    obtain rfl := Option.some.inj hc
    by_cases hp : (Osal.semTaken (g.sem s)).1 = true
    · simp only [evalCond, if_pos hp, if_true]
    · simp only [evalCond, if_neg hp, Bool.false_eq_true, if_false]
  | sembTaken s =>
    obtain rfl := Option.some.inj hc
    cases hp : g.semb s with
    | true => simp only [evalCond, Osal.sembTaken, hp, if_true]
    | false =>
      have := Function.update_eq_self s g.semb
      rw [hp] at this
      simp only [evalCond, Osal.sembTaken, hp, this, Bool.false_eq_true, if_false]
  | _ => exact absurd hc (Option.some_ne_none e).symm

theorem SignalsOk.accounts (h : SignalsOk maxCount initialCount s.g)
    (hw : AllFrames (ReturnsLast cfg) s) : SignalAccounts cfg maxCount initialCount s where
  sem i hi := ⟨(h.sem i hi).count, (h.sem i hi).le⟩
  notify t := by
    refine ⟨(h.notify t).le, fun hlt => ?_⟩
    rw [(h.notify t).eq]
    exact UInt32.toNat_ofNat_of_lt' hlt
  semb i := h.semb i
  semb_wait i evals w hl hpc := by
    have hsig : s.g.semb i = true := (h.semb i).mpr hl
    have hst : waitStep cfg (ticks s.g) s.g.teardown (s.g.cur = none) w = (w, .eval) := by
      rcases hpc with hpc | hpc <;> simp only [waitStep, hpc]
    have hnext : waitCond true w = { w with pc := .leave true } := by
      rcases hpc with hpc | hpc <;> simp only [waitCond, hpc, if_true]
    simp only [waitFrame, hst, evalCond, Osal.sembTaken, hsig, Cond.wakes, hnext, Bool.false_eq_true,
      and_false, if_false]
  takes c e hc := evalCond_takes hc
  waits := hw

variable {now : Nat} {mutex : Nat → Mutex} {queue : Nat → Queue} {tr : List Event}

/-- **Signal accounting**: in every run, from semaphores as they are created. -/
theorem signal_accounts
    (h : Run (Step cfg) (boot (bootGlobals now mutex
      (fun i => semCreate (maxCount i) (initialCount i)) (fun _ => false) queue)) tr s) :
    SignalAccounts cfg maxCount initialCount s := by
  refine SignalsOk.accounts ?_ (waits_run h)
  refine h.inv (I := fun s => SignalsOk maxCount initialCount s.g) ⟨fun i hi => ?_, fun t => ?_,
    fun i => ?_⟩ fun _ _ _ hq hs => hs.objects signals_rule hq
  · exact ⟨rfl, rfl, hi⟩
  · exact ⟨Nat.le_refl 0, rfl⟩
  · exact ⟨fun hf => Bool.noConfusion hf, fun hn => absurd hn (Option.some_ne_none _).symm⟩

/-- An interrupt gives semaphore 0; two waits of thread context with no timeout follow. -/
def giveWaitWait : List Event :=
  [.isr (.semGive 0), .isrStep go, .isrStep go, .isrStep go] ++
    (.thread (calling (.semWait 0 0)) :: List.replicate 7 (.thread go)) ++
    (.thread (calling (.semWait 0 0)) :: List.replicate 5 (.thread go))

theorem signal_accounts_giveWaitWait : ∃ s, Run (Step .defaults) bootBare giveWaitWait s ∧
    s.g.log = [.semTaken 0, .semGiven 0] ∧
    SignalAccounts .defaults (fun _ => 1) (fun _ => 0) s := by
  obtain ⟨s, hs, hp⟩ := run_any (fun s => s.g.log = [.semTaken 0, .semGiven 0])
    (by rfl : (giveWaitWait.foldlM (step .defaults) bootBare).any _ = true)
  exact ⟨s, hs, of_decide_eq_true hp, signal_accounts hs⟩

end MmHalow.Sched
