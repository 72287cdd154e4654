import MmHalow.Osal.Timer

/-!
# What the timers do over time

A timer is an alarm: it is armed for a moment by a start, by a change of its period while it is armed, and
by the poll where it reloads, and disarmed by a stop, by its deletion and by the poll where it does not.
`alarms` reads this off what has been done, in milliseconds that do not wrap. The machine below does it in
the code's way, on the list, in wrapping ticks and with the poll taken apart at every node, so that a
callback's calls fall between two of its iterations, and time passes anywhere.

* `Tracks`: the list holds the alarms.
* `Polled`: what a poll under way has done and has ahead.
* `Justified`: a timer fires once in a poll and only when its alarm is due; a poll fires every alarm that
  was due when it began and that nobody has touched since; the pending predicate foretells whether it fires.
* `timers_fire`: **in every run in which the poll looks at no timer that has been due for 2^31 ms, and at
  none that is armed for more than 2^31 ms after the poll's tick, all this holds, and the poll does not
  stop before its end.**
* `fires_early`: the first of the two is what callers see to by polling often enough; the second is the
  code's, whose poll fires a timer that a callback has armed too far ahead of the tick it was given.

Interrupts do not act on the list between two steps of the poll here, only callbacks do.
-/

namespace MmHalow.Osal

open MmHalow.Lib MmHalow.Lib.Clock

/-! ## Alarms -/

/-- What has been done: calls on a timer, with the time they read; the beginning of a poll, with its time
and what `mm_halow_osal_timer_pending` says there; a timer that fires, with the time of its poll. -/
inductive Entry where
  | created (timer : Nat) (periodMs : UInt32) (autoReload : Bool)
  | deleted (timer : Nat)
  | started (timer time : Nat)
  | stopped (timer : Nat)
  | changed (timer : Nat) (periodMs : UInt32) (time : Nat)
  | pollBegun (time : Nat) (pending : Bool)
  | fired (timer time : Nat)
  | pollEnded
  deriving Repr, DecidableEq

/-- A timer as an alarm, and the moment it is armed for. -/
structure Alarm where
  period : Nat
  autoReload : Bool
  due : Option Nat
  deriving Repr, DecidableEq

def Alarm.start (time : Nat) (x : Alarm) : Alarm := { x with due := some (time + x.period) }

def Alarm.stop (x : Alarm) : Alarm := { x with due := none }

def Alarm.changePeriod (periodMs : UInt32) (time : Nat) (x : Alarm) : Alarm :=
  { x with period := periodMs.toNat, due := x.due.map fun _ => time + periodMs.toNat }

/-- The alarm goes off in a poll. -/
def Alarm.fire (time : Nat) (x : Alarm) : Alarm :=
  { x with due := if x.autoReload then x.due.map fun _ => time + x.period else none }

/-- **The alarms, by what has been done**, latest first: the latest call on a timer counts. -/
def alarms : List Entry → Nat → Option Alarm
  | [], _ => none
  | .created timer periodMs autoReload :: l, a =>
    if timer = a then some ⟨periodMs.toNat, autoReload, none⟩ else alarms l a
  | .deleted timer :: l, a => if timer = a then none else alarms l a
  | .started timer time :: l, a => if timer = a then (alarms l a).map (.start time) else alarms l a
  | .stopped timer :: l, a => if timer = a then (alarms l a).map .stop else alarms l a
  | .changed timer periodMs time :: l, a =>
    if timer = a then (alarms l a).map (.changePeriod periodMs time) else alarms l a
  | .fired timer time :: l, a => if timer = a then (alarms l a).map (.fire time) else alarms l a
  | .pollBegun _ _ :: l, a => alarms l a
  | .pollEnded :: l, a => alarms l a

/-- Somebody calls upon the timer. -/
def Entry.Touches (a : Nat) : Entry → Prop
  | created timer _ _ | deleted timer | started timer _ | stopped timer | changed timer _ _ => timer = a
  | _ => False

def Entry.isPoll : Entry → Bool
  | pollBegun _ _ | pollEnded => true
  | _ => false

/-! ## The machine -/

/-- A poll under way: when it began, its variable `timer`, and the timer whose callback runs. -/
structure PollAt where
  begun : Nat
  cursor : Nat
  own : Option Nat
  deriving Repr, DecidableEq

structure TimerRun where
  now : Nat
  timers : Timers
  poll : Option PollAt
  log : List Entry
  deriving Repr, DecidableEq

/-- What happens next: time passes; a call is made; the poll begins, takes a node, comes back from a
callback, ends. -/
inductive TimerEvent where
  | pass (ms : Nat)
  | call (c : TimerCall)
  | pollBegin
  | pollNode
  | callbackEnd
  | pollEnd
  deriving Repr, DecidableEq

/-- The tick that a call reads. -/
def TimerCall.Reads (now : UInt32) : TimerCall → Prop
  | start t _ | changePeriod t _ _ => t = now
  | _ => True

/-- A callback deletes its own timer at most. -/
def TimerCall.DeletesOnly (own : Nat) : TimerCall → Prop
  | delete timer => timer = 0 ∨ timer = own
  | _ => True

instance (now : UInt32) : (c : TimerCall) → Decidable (c.Reads now)
  | .start t _ => inferInstanceAs (Decidable (t = now))
  | .changePeriod t _ _ => inferInstanceAs (Decidable (t = now))
  | .create .. => inferInstanceAs (Decidable True)
  | .delete _ => inferInstanceAs (Decidable True)
  | .stop _ => inferInstanceAs (Decidable True)

instance (own : Nat) : (c : TimerCall) → Decidable (c.DeletesOnly own)
  | .delete _ => inferInstanceAs (Decidable (_ ∨ _))
  | .start .. => inferInstanceAs (Decidable True)
  | .changePeriod .. => inferInstanceAs (Decidable True)
  | .create .. => inferInstanceAs (Decidable True)
  | .stop _ => inferInstanceAs (Decidable True)

/-- What a call does, for the record; nothing where it has no timer. -/
def TimerCall.entry (time : Nat) : TimerCall → Option Entry
  | create p periodMs autoReload _ _ => if p = 0 then none else some (.created p periodMs autoReload)
  | delete timer => if timer = 0 then none else some (.deleted timer)
  | start _ timer => if timer = 0 then none else some (.started timer time)
  | stop timer => if timer = 0 then none else some (.stopped timer)
  | changePeriod _ timer periodMs => if timer = 0 then none else some (.changed timer periodMs time)

/-- Where a call may be made: outside of polls, or in a callback. -/
def MayCall (c : TimerCall) : Option PollAt → Prop
  | none => True
  | some ⟨_, _, none⟩ => False
  | some ⟨_, _, some own⟩ => c.DeletesOnly own

instance (c : TimerCall) : (p : Option PollAt) → Decidable (MayCall c p)
  | none => inferInstanceAs (Decidable True)
  | some ⟨_, _, none⟩ => inferInstanceAs (Decidable False)
  | some ⟨_, _, some own⟩ => inferInstanceAs (Decidable (c.DeletesOnly own))

/-- One iteration of `mm_halow_osal_timer_poll`, to where the callback begins if the timer is due; `none`
when it reads a node that is not live. -/
def TimerRun.node (s : TimerRun) (begun cursor : Nat) : Option TimerRun :=
  match nodeAt cursor s.timers.list with
  | none => none
  | some (t, next) =>
    if timerDue (tick begun) t then
      some { s with
        timers := timerFired (tick begun) t.addr s.timers
        poll := some ⟨begun, next, some t.addr⟩
        log := .fired t.addr begun :: s.log }
    else some { s with poll := some ⟨begun, next, none⟩ }

/-- The effect of an event; `none` where it cannot happen. -/
def TimerRun.next (s : TimerRun) : TimerEvent → Option TimerRun
  | .pass ms => some { s with now := s.now + ms }
  | .call c =>
    if c.Legal s.timers.list ∧ c.Reads (tick s.now) ∧ MayCall c s.poll then
      some { s with timers := c.exec s.timers, log := (c.entry s.now).toList ++ s.log }
    else none
  | .pollBegin =>
    match s.poll with
    | none => some { s with
      poll := some ⟨s.now, headAddr s.timers.list, none⟩
      log := .pollBegun s.now (timerPending (tick s.now) s.timers.list) :: s.log }
    | some _ => none
  | .pollNode =>
    match s.poll with
    | some ⟨begun, cursor, none⟩ => if cursor = 0 then none else s.node begun cursor
    | _ => none
  | .callbackEnd =>
    match s.poll with
    | some ⟨begun, cursor, some _⟩ => some { s with poll := some ⟨begun, cursor, none⟩ }
    | _ => none
  | .pollEnd =>
    match s.poll with
    | some ⟨_, 0, none⟩ => some { s with poll := none, log := .pollEnded :: s.log }
    | _ => none

/-- The steps of the machine. -/
def TimerRun.Step (s : TimerRun) (e : TimerEvent) (t : TimerRun) : Prop := s.next e = some t

/-- No timers yet, at any time. -/
def TimerRun.start (now : Nat) : TimerRun := ⟨now, ⟨[], []⟩, none, []⟩

/-- What a node that the poll takes is armed for, beside the poll's tick. -/
def LooksAt (P : Nat → Nat → Prop) (s : TimerRun) : TimerEvent → Prop
  | .pollNode => ∀ p ∈ s.poll, ∀ t next, nodeAt p.cursor s.timers.list = some (t, next) →
    ∀ x d, alarms s.log t.addr = some x → x.due = some d → P p.begun d
  | _ => True

/-- **An armed timer is polled within 2^31 ms of expiring**: none that a poll takes has been due for longer. -/
def InTime : TimerRun → TimerEvent → Prop := LooksAt fun begun due => begun < due + 2 ^ 31

/-- **A timer that the poll takes is armed for 2^31 ms after the poll's tick at most.** A start of a period
below 2^31 ms sees to that, unless it comes later than the tick. -/
def Near : TimerRun → TimerEvent → Prop := LooksAt fun begun due => due ≤ begun + 2 ^ 31

/-- The periods are below 2^31 ms. -/
def TimerCall.Short : TimerCall → Prop
  | create _ periodMs _ _ _ | changePeriod _ _ periodMs => periodMs.toNat < 2 ^ 31
  | _ => True

instance : (c : TimerCall) → Decidable c.Short
  | .create _ periodMs .. => inferInstanceAs (Decidable (periodMs.toNat < 2 ^ 31))
  | .changePeriod _ _ periodMs => inferInstanceAs (Decidable (periodMs.toNat < 2 ^ 31))
  | .delete _ => inferInstanceAs (Decidable True)
  | .start .. => inferInstanceAs (Decidable True)
  | .stop _ => inferInstanceAs (Decidable True)

/-- What is asked of those who call: short periods, and polls that are often enough. -/
def Promised (s : TimerRun) (e : TimerEvent) : Prop :=
  InTime s e ∧ ∀ c, e = .call c → c.Short

/-! ## The list holds the alarms -/

/-- The timer is the alarm. -/
structure Timer.Is (t : Timer) (x : Alarm) : Prop where
  period : x.period = t.periodMs.toNat
  autoReload : x.autoReload = t.autoReload
  active : t.active = x.due.isSome
  expires : ∀ d ∈ x.due, t.expiresAt = tick d

/-- **The list holds the alarms**, and nothing else is one. -/
structure Tracks (l : List Timer) (al : Nat → Option Alarm) : Prop where
  timer : ∀ t ∈ l, ∃ x, al t.addr = some x ∧ t.Is x
  other : ∀ a, a ∉ l.map Timer.addr → al a = none

variable {s t : TimerRun} {e : TimerEvent} {l : List Timer} {al : Nat → Option Alarm}
  {log mid base : List Entry}
  {c : TimerCall} {time a : Nat} {u : Timer} {x : Alarm}

theorem tick_toNat (p : UInt32) : tick p.toNat = p := UInt32.ofNat_toNat

theorem Timer.Is.start (h : u.Is x) :
    Timer.Is { u with expiresAt := tick time + u.periodMs, active := true } (x.start time) := by
  refine ⟨h.period, h.autoReload, rfl, fun d hd => ?_⟩
  obtain rfl := Option.some.inj hd
  rw [h.period, tick_add, tick_toNat]

theorem Timer.Is.stop (h : u.Is x) : Timer.Is { u with active := false } x.stop :=
  ⟨h.period, h.autoReload, rfl, nofun⟩

theorem Timer.Is.changePeriod {p : UInt32} (h : u.Is x) :
    Timer.Is { u with
      periodMs := p, expiresAt := if u.active then tick time + p else u.expiresAt }
      (x.changePeriod p time) := by
  refine ⟨rfl, h.autoReload, ?_, fun d hd => ?_⟩
  · rw [Alarm.changePeriod, Option.isSome_map]
    exact h.active
  · obtain ⟨d', hd', rfl⟩ := Option.map_eq_some_iff.mp hd
    have hactive : u.active = true := by rw [h.active, hd']; rfl
    rw [if_pos hactive, tick_add, tick_toNat]

theorem Timer.Is.fire (h : u.Is x) (ha : u.active = true) : Timer.Is (rearm (tick time) u) (x.fire time) := by
  have hdue : x.due.isSome = true := h.active.symm.trans ha
  unfold rearm Alarm.fire
  rw [h.autoReload]
  by_cases hr : u.autoReload = true
  · rw [if_pos hr, if_pos hr]
    refine ⟨h.period, rfl, ?_, fun d hd => ?_⟩
    · rw [Option.isSome_map, hdue]
      exact ha
    · obtain ⟨d', -, rfl⟩ := Option.map_eq_some_iff.mp hd
      rw [h.period, tick_add, tick_toNat]
  · rw [if_neg hr, if_neg hr]
    exact ⟨h.period, rfl, rfl, nofun⟩

/-- **A write to the fields of a timer**, and the same to its alarm. -/
theorem Tracks.set {f : Timer → Timer} {g : Alarm → Alarm} (h : Tracks l al) (hf : ∀ u, (f u).addr = u.addr)
    (hg : ∀ u ∈ l, ∀ x, u.addr = a → al a = some x → u.Is x → (f u).Is (g x)) :
    Tracks (setTimer a f l) fun b => if a = b then (al b).map g else al b := by
  have haddr : (setTimer a f l).map Timer.addr = l.map Timer.addr := by
    refine (List.map_map ..).trans (List.map_congr_left fun u _ => ?_)
    simp only [Function.comp]
    split_ifs <;> rfl
  refine ⟨fun u' hu' => ?_, fun b hb => ?_⟩
  · obtain ⟨u, hu, rfl⟩ := List.mem_map.mp hu'
    obtain ⟨x, hx, his⟩ := h.timer u hu
    by_cases hua : u.addr = a
    · have hfu : ({ f u with addr := u.addr } : Timer) = f u := by rw [← hf u]
      rw [if_pos hua, hfu, hf u, if_pos hua.symm, hx]
      exact ⟨g x, rfl, hg u hu x hua (hua ▸ hx) his⟩
    · rw [if_neg hua, if_neg fun h => hua h.symm]
      exact ⟨x, hx, his⟩
  · rw [haddr] at hb
    rw [h.other b hb]
    split_ifs <;> rfl

theorem mem_eraseP_addr {b : Nat} (h : b ∈ l.map Timer.addr) (hb : b ≠ a) :
    b ∈ (l.eraseP fun t => t.addr = a).map Timer.addr := by
  obtain ⟨u, hu, rfl⟩ := List.mem_map.mp h
  refine List.mem_map_of_mem ((List.mem_eraseP_of_neg ?_).mpr hu)
  simpa using hb

/-- **A call keeps the list the alarms.** -/
theorem Tracks.exec {q : Timers} (h : Tracks q.list (alarms log)) (hwf : TimersWF q.list)
    (hc : c.Legal q.list) (hr : c.Reads (tick time)) :
    Tracks (c.exec q).list (alarms ((c.entry time).toList ++ log)) := by
  cases c with
  | create p periodMs autoReload arg callback =>
    by_cases hp : p = 0
    · simp only [TimerCall.exec, timerCreate, TimerCall.entry, if_pos hp]
      exact h
    · simp only [TimerCall.exec, timerCreate, TimerCall.entry, if_neg hp]
      refine ⟨List.forall_mem_cons.mpr ⟨?_, fun u hu => ?_⟩, fun b hb => ?_⟩
      · exact ⟨⟨periodMs.toNat, autoReload, none⟩, if_pos rfl, rfl, rfl, rfl,
          fun d hd => absurd hd (Option.not_mem_none d)⟩
      · obtain ⟨x, hx, his⟩ := h.timer u hu
        have hne : p ≠ u.addr := fun h => hc (h ▸ List.mem_map_of_mem hu)
        exact ⟨x, (if_neg hne).trans hx, his⟩
      · obtain ⟨hne, hb⟩ := List.ne_and_not_mem_of_not_mem_cons hb
        exact (if_neg fun h => hne h.symm).trans (h.other b hb)
  | delete a =>
    by_cases ha : a = 0
    · simp only [TimerCall.exec, timerDelete, TimerCall.entry, if_pos ha]
      exact h
    · simp only [TimerCall.exec, timerDelete, TimerCall.entry, if_neg ha]
      refine ⟨fun u hu => ?_, fun b hb => ?_⟩
      · obtain ⟨x, hx, his⟩ := h.timer u (List.eraseP_sublist.subset hu)
        have hne : a ≠ u.addr := fun h => not_mem_erase_addr hwf.nodup (h ▸ List.mem_map_of_mem hu)
        exact ⟨x, (if_neg hne).trans hx, his⟩
      · by_cases hba : a = b
        · exact if_pos hba
        · exact (if_neg hba).trans (h.other b fun hb' => hb (mem_eraseP_addr hb' fun h => hba h.symm))
  | start now a =>
    obtain rfl : now = tick time := hr
    by_cases ha : a = 0
    · simp only [TimerCall.exec, timerStart, TimerCall.entry, if_pos ha]
      exact h
    · simp only [TimerCall.exec, timerStart, TimerCall.entry, if_neg ha]
      exact h.set (fun _ => rfl) fun u _ x _ _ his => his.start
  | stop a =>
    by_cases ha : a = 0
    · simp only [TimerCall.exec, timerStop, TimerCall.entry, if_pos ha]
      exact h
    · simp only [TimerCall.exec, timerStop, TimerCall.entry, if_neg ha]
      exact h.set (fun _ => rfl) fun u _ x _ _ his => his.stop
  | changePeriod now a periodMs =>
    obtain rfl : now = tick time := hr
    by_cases ha : a = 0
    · simp only [TimerCall.exec, timerChangePeriod, TimerCall.entry, if_pos ha]
      exact h
    · simp only [TimerCall.exec, timerChangePeriod, TimerCall.entry, if_neg ha]
      exact h.set (fun _ => rfl) fun u _ x _ _ his => his.changePeriod

/-- The poll's own update. -/
theorem Tracks.fired {q : Timers} (h : Tracks q.list (alarms log)) (hwf : TimersWF q.list) (hu : u ∈ q.list)
    (ha : u.active = true) :
    Tracks (timerFired (tick time) u.addr q).list (alarms (.fired u.addr time :: log)) := by
  refine h.set (fun v => ?_) fun v hv x hva _ his => ?_
  · unfold rearm
    split_ifs <;> rfl
  · obtain rfl := List.inj_on_of_nodup_map hwf.nodup hv hu hva
    exact his.fire ha

/-! ## Alarms that are left alone -/

/-- The record does not concern the timer: nobody calls upon it and it does not fire. -/
def Entry.Spares (a : Nat) (e : Entry) : Prop := ¬ e.Touches a ∧ ∀ b, e ≠ .fired a b

theorem alarms_spares (h : ∀ e ∈ mid, e.Spares a) : alarms (mid ++ log) a = alarms log a := by
  induction mid with
  | nil => rfl
  | cons e mid ih =>
    obtain ⟨⟨htouch, hfire⟩, hmid⟩ := List.forall_mem_cons.mp h
    rw [List.cons_append, ← ih hmid]
    cases e with
    | fired b time =>
      refine if_neg fun hb => hfire time ?_
      rw [hb]
    | pollBegun => rfl
    | pollEnded => rfl
    | _ => exact if_neg htouch

/-- **A one-shot timer that has fired** is not armed until it is started. -/
theorem alarms_oneShot {b : Nat} (h : ∀ t, Entry.started a t ∉ mid)
    (hone : ∀ x, alarms log a = some x → x.autoReload = false) :
    ∀ x, alarms (mid ++ .fired a b :: log) a = some x → x.due = none := by
  induction mid with
  | nil =>
    intro x hx
    have hx : (if a = a then (alarms log a).map (.fire b) else alarms log a) = some x := hx
    rw [if_pos rfl] at hx
    obtain ⟨y, hy, rfl⟩ := Option.map_eq_some_iff.mp hx
    unfold Alarm.fire
    rw [hone y hy]
    rfl
  | cons e mid ih =>
    intro x hx
    have ih := ih fun t ht => h t (List.mem_cons_of_mem _ ht)
    have hmap : ∀ {timer : Nat} {g : Alarm → Alarm}, (∀ y, y.due = none → (g y).due = none) →
        (if timer = a then (alarms (mid ++ .fired a b :: log) a).map g
          else alarms (mid ++ .fired a b :: log) a) = some x → x.due = none := by
      intro timer g hg hx
      split_ifs at hx
      · obtain ⟨y, hy, rfl⟩ := Option.map_eq_some_iff.mp hx
        exact hg y (ih y hy)
      · exact ih x hx
    cases e with
    | created timer periodMs autoReload =>
      have hx : (if timer = a then some ⟨periodMs.toNat, autoReload, none⟩
        else alarms (mid ++ .fired a b :: log) a) = some x := hx
      split_ifs at hx
      · obtain rfl := Option.some.inj hx
        rfl
      · exact ih x hx
    | deleted timer =>
      have hx : (if timer = a then none else alarms (mid ++ .fired a b :: log) a) = some x := hx
      split_ifs at hx
      exact ih x hx
    | started timer time =>
      have hne : timer ≠ a := fun hta => h time (hta ▸ List.mem_cons_self)
      have hx : (if timer = a then (alarms (mid ++ .fired a b :: log) a).map (.start time)
        else alarms (mid ++ .fired a b :: log) a) = some x := hx
      rw [if_neg hne] at hx
      exact ih x hx
    | stopped timer => exact hmap (fun _ _ => rfl) hx
    | changed timer periodMs time =>
      refine hmap (fun y hy => ?_) hx
      rw [Alarm.changePeriod, hy]
      rfl
    | fired timer time =>
      refine hmap (fun y hy => ?_) hx
      rw [Alarm.fire, hy]
      split_ifs <;> rfl
    | pollBegun => exact ih x hx
    | pollEnded => exact ih x hx

/-! ## A poll under way -/

/-- **What a poll has done and has ahead**: `base` and `mid` is what was done before and since it began,
`suf` is the part of the list from its cursor on. -/
structure Polled (s : TimerRun) (p : PollAt) (base mid : List Entry) (pending : Bool) (pre suf : List Timer) :
    Prop where
  log : s.log = mid ++ .pollBegun p.begun pending :: base
  list : s.timers.list = pre ++ suf
  cursor : p.cursor = headAddr suf
  inner : ∀ e ∈ mid, e.isPoll = false
  /-- What is ahead has not fired. -/
  fresh : ∀ a ∈ suf.map Timer.addr, ∀ b, .fired a b ∉ mid
  /-- The timer whose callback runs is not ahead. -/
  own : ∀ a ∈ p.own, a ∉ suf.map Timer.addr
  /-- An alarm that was due fires or is ahead, as long as nobody touches it. -/
  due : ∀ a x d, alarms base a = some x → x.due = some d → d ≤ p.begun → (∀ e ∈ mid, ¬ e.Touches a) →
    (∃ b, .fired a b ∈ mid) ∨ a ∈ suf.map Timer.addr
  /-- A timer has fired as foretold, or nothing has been done yet. -/
  pending : pending = true ∧ (∃ a b, .fired a b ∈ mid) ∨
    mid = [] ∧ p.own = none ∧ pending = timerPending (tick p.begun) suf

/-- The time of the poll under way. -/
def polledAt : List Entry → Option Nat
  | [] => none
  | .pollBegun time _ :: _ => some time
  | .pollEnded :: _ => none
  | _ :: l => polledAt l

/-- **Why an entry is there.** A timer fires in a poll, if its alarm is due at the poll's time; since it has
last fired another poll has begun, and it has been started, if it does not reload. A poll ends when it has
fired all alarms that were due when it began and that nobody has touched since; and it has fired any exactly
if that was foretold. -/
def Justifies (log : List Entry) : Entry → Prop
  | .fired a b => polledAt log = some b ∧ (∃ x d, alarms log a = some x ∧ x.due = some d ∧ d ≤ b) ∧
    ∀ mid b' base, log = mid ++ .fired a b' :: base → (∃ t pending, .pollBegun t pending ∈ mid) ∧
      ((∀ x, alarms base a = some x → x.autoReload = false) → ∃ t, .started a t ∈ mid)
  | .pollEnded => ∀ mid b pending base, log = mid ++ .pollBegun b pending :: base →
    (∀ e ∈ mid, e.isPoll = false) → (pending = true ↔ ∃ a b', .fired a b' ∈ mid) ∧
      ∀ a x d, alarms base a = some x → x.due = some d → d ≤ b → (∀ e ∈ mid, ¬ e.Touches a) →
        ∃ b', .fired a b' ∈ mid
  | _ => True

/-- Every entry is justified by what came before. -/
def Justified (log : List Entry) : Prop := ∀ post e pre, log = post ++ e :: pre → Justifies pre e

theorem Justified.cons {e : Entry} (h : Justified log) (he : Justifies log e) : Justified (e :: log) := by
  intro post e' pre hlog
  cases post with
  | nil =>
    obtain ⟨rfl, rfl⟩ := List.cons.inj hlog
    exact he
  | cons e'' post =>
    obtain ⟨-, hlog⟩ := List.cons.inj hlog
    exact h post e' pre hlog

/-- What is kept by every step. -/
structure TimerInv (s : TimerRun) : Prop where
  wf : TimersWF s.timers.list
  tracks : Tracks s.timers.list (alarms s.log)
  justified : Justified s.log
  polled : ∀ p ∈ s.poll, ∃ base mid pending pre suf, Polled s p base mid pending pre suf

variable {p : PollAt} {pre suf : List Timer} {pending : Bool}

theorem polledAt_append {b : Nat} (h : ∀ e ∈ mid, e.isPoll = false) :
    polledAt (mid ++ .pollBegun b pending :: base) = some b := by
  induction mid with
  | nil => rfl
  | cons e mid ih =>
    obtain ⟨he, hmid⟩ := List.forall_mem_cons.mp h
    cases e with
    | pollBegun => exact nomatch he
    | pollEnded => exact nomatch he
    | _ => exact ih hmid

/-- A log has one beginning of the poll under way. -/
theorem pollBegun_unique {mid' base' : List Entry} {b b' : Nat} {pending' : Bool}
    (h : mid ++ .pollBegun b pending :: base = mid' ++ .pollBegun b' pending' :: base')
    (hm : ∀ e ∈ mid, e.isPoll = false) (hm' : ∀ e ∈ mid', e.isPoll = false) :
    mid = mid' ∧ b = b' ∧ pending = pending' ∧ base = base' := by
  induction mid generalizing mid' with
  | nil =>
    cases mid' with
    | nil =>
      obtain ⟨hhead, rfl⟩ := List.cons.inj h
      obtain ⟨rfl, rfl⟩ := Entry.pollBegun.inj hhead
      exact ⟨rfl, rfl, rfl, rfl⟩
    | cons e mid' =>
      obtain ⟨rfl, -⟩ := List.cons.inj h
      exact nomatch hm' _ List.mem_cons_self
  | cons e mid ih =>
    cases mid' with
    | nil =>
      obtain ⟨rfl, -⟩ := List.cons.inj h
      exact nomatch hm _ List.mem_cons_self
    | cons e' mid' =>
      obtain ⟨rfl, htail⟩ := List.cons.inj h
      obtain ⟨rfl, rfl, rfl, rfl⟩ := ih htail (fun e he => hm e (List.mem_cons_of_mem _ he))
        fun e he => hm' e (List.mem_cons_of_mem _ he)
      exact ⟨rfl, rfl, rfl, rfl⟩

theorem headAddr_congr {suf' : List Timer} (h : suf'.map Timer.addr = suf.map Timer.addr) :
    headAddr suf' = headAddr suf := by
  cases suf' with
  | nil =>
    cases suf with
    | nil => rfl
    | cons => exact nomatch h
  | cons u suf' =>
    cases suf with
    | nil => exact nomatch h
    | cons v suf => exact (List.cons.inj h).1

/-! ## Calls -/

/-- **A call of a callback leaves what is ahead where it is.** -/
theorem exec_ahead {q : Timers} (hc : c.Legal q.list) (hl : q.list = pre ++ suf)
    (hdel : ∀ a, c = .delete a → a ∉ suf.map Timer.addr) :
    ∃ pre' suf', (c.exec q).list = pre' ++ suf' ∧ suf'.map Timer.addr = suf.map Timer.addr := by
  obtain ⟨t, -, -, he⟩ | ⟨a, h0, rfl, he⟩ | ⟨f, hf, he⟩ := TimerCall.exec_cases hc
  · rw [he]
    exact ⟨t :: pre, suf, congrArg (t :: ·) hl, rfl⟩
  · rw [he, hl]
    have hmem : a ∈ pre.map Timer.addr := by
      obtain h | h : Handle q.list a := hc
      · exact absurd h h0
      · rw [hl, List.map_append] at h
        exact (List.mem_append.mp h).resolve_right (hdel a rfl)
    obtain ⟨u, hu, rfl⟩ := List.mem_map.mp hmem
    exact ⟨pre.eraseP fun t => t.addr = u.addr, suf, List.eraseP_append_left (by simp) _ hu, rfl⟩
  · rw [he, hl]
    exact ⟨pre.map f, suf.map f, List.map_append, map_addr_map hf suf⟩

theorem TimerCall.entry_justified (c : TimerCall) (time : Nat) (log : List Entry) :
    ∀ e ∈ c.entry time, Justifies log e := by
  intro e he
  cases c with
  | _ =>
    obtain ⟨-, he⟩ := Option.ite_none_left_eq_some.mp he
    obtain rfl := Option.some.inj he
    trivial

theorem TimerCall.entry_calls : ∀ e ∈ c.entry time, e.isPoll = false ∧ ∀ a b, e ≠ .fired a b := by
  intro e he
  cases c with
  | _ =>
    obtain ⟨-, he⟩ := Option.ite_none_left_eq_some.mp he
    obtain rfl := Option.some.inj he
    exact ⟨rfl, fun _ _ => Entry.noConfusion⟩

theorem TimerInv.call (h : TimerInv s) (hc : c.Legal s.timers.list) (hr : c.Reads (tick s.now))
    (hm : MayCall c s.poll) :
    TimerInv { s with timers := c.exec s.timers, log := (c.entry s.now).toList ++ s.log } := by
  refine ⟨h.wf.exec hc, h.tracks.exec h.wf hc hr, ?_, fun p hp => ?_⟩
  · have hj := TimerCall.entry_justified c s.now s.log
    cases he : c.entry s.now with
    | none => exact h.justified
    | some e => exact h.justified.cons (hj e he)
  · obtain ⟨base, mid, pending, pre, suf, hp'⟩ := h.polled p hp
    have hown : ∃ own, p.own = some own ∧ c.DeletesOnly own := by
      rw [Option.mem_def.mp hp] at hm
      obtain ⟨begun, cursor, own⟩ := p
      cases own with
      | none => exact hm.elim
      | some own => exact ⟨own, rfl, hm⟩
    obtain ⟨own, hown, hdel⟩ := hown
    have hnot : ∀ a, c = .delete a → a ∉ suf.map Timer.addr := by
      rintro a rfl
      obtain rfl | rfl : a = 0 ∨ a = own := hdel
      · intro h0
        refine h.wf.nonzero ?_
        rw [hp'.list, List.map_append]
        exact List.mem_append_right _ h0
      · exact hp'.own a hown
    obtain ⟨pre', suf', hl, hsuf⟩ := exec_ahead hc hp'.list hnot
    refine ⟨base, (c.entry s.now).toList ++ mid, pending, pre', suf', ?_, hl, ?_, ?_, ?_, ?_, ?_, ?_⟩
    · rw [List.append_assoc, ← hp'.log]
    · rw [headAddr_congr hsuf]
      exact hp'.cursor
    · intro e he
      obtain he | he := List.mem_append.mp he
      · exact (TimerCall.entry_calls e (Option.mem_toList.mp he)).1
      · exact hp'.inner e he
    · intro a ha b hb
      rw [hsuf] at ha
      obtain hb | hb := List.mem_append.mp hb
      · exact (TimerCall.entry_calls _ (Option.mem_toList.mp hb)).2 a b rfl
      · exact hp'.fresh a ha b hb
    · rw [hsuf]
      exact hp'.own
    · intro a x d hx hd hle htouch
      rw [hsuf]
      refine (hp'.due a x d hx hd hle fun e he => htouch e (List.mem_append_right _ he)).imp_left ?_
      exact fun ⟨b, hb⟩ => ⟨b, List.mem_append_right _ hb⟩
    · obtain ⟨hpend, a, b, hb⟩ | ⟨-, hnone, -⟩ := hp'.pending
      · exact .inl ⟨hpend, a, b, List.mem_append_right _ hb⟩
      · exact nomatch hown.symm.trans hnone

/-! ## The poll -/

theorem TimerInv.pollBegin (h : TimerInv s) :
    TimerInv { s with
      poll := some ⟨s.now, headAddr s.timers.list, none⟩
      log := .pollBegun s.now (timerPending (tick s.now) s.timers.list) :: s.log } := by
  refine ⟨h.wf, ⟨h.tracks.timer, h.tracks.other⟩, h.justified.cons trivial, fun p hp => ?_⟩
  obtain rfl := Option.some.inj hp
  refine ⟨s.log, [], timerPending (tick s.now) s.timers.list, [], s.timers.list, rfl, rfl, rfl,
    fun _ h => absurd h List.not_mem_nil, fun _ _ _ h => absurd h List.not_mem_nil, nofun, ?_,
    .inr ⟨rfl, rfl, rfl⟩⟩
  intro a x d hx _ _ _
  refine .inr ?_
  by_contra hnot
  exact nomatch (h.tracks.other a hnot).symm.trans hx

/-- The node at the cursor is the first of what is ahead. -/
theorem Polled.nodeAt (h : Polled s p base mid pending pre (u :: suf)) (hwf : TimersWF s.timers.list) :
    nodeAt p.cursor s.timers.list = some (u, headAddr suf) := by
  have hnd := hwf.nodup
  rw [h.list, List.map_append, List.nodup_append] at hnd
  rw [h.cursor, h.list]
  exact nodeAt_append fun hin => hnd.2.2 _ hin _ List.mem_cons_self rfl

/-- **Whether the poll fires a timer** that it looks at in range: whether its alarm is due. -/
theorem timerDue_iff (h : u.Is x) {b : Nat}
    (hr : ∀ d, x.due = some d → b < d + 2 ^ 31 ∧ d ≤ b + 2 ^ 31) :
    timerDue (tick b) u = true ↔ ∃ d, x.due = some d ∧ d ≤ b := by
  unfold timerDue
  rw [Bool.and_eq_true, h.active]
  constructor
  · rintro ⟨hsome, hreached⟩
    obtain ⟨d, hd⟩ := Option.isSome_iff_exists.mp hsome
    rw [h.expires d hd] at hreached
    obtain ⟨h1, h2⟩ := hr d hd
    exact ⟨d, hd, (reached_tick h1 h2).mp hreached⟩
  · rintro ⟨d, hd, hle⟩
    obtain ⟨h1, h2⟩ := hr d hd
    rw [h.expires d hd]
    exact ⟨Option.isSome_iff_exists.mpr ⟨d, hd⟩, (reached_tick h1 h2).mpr hle⟩

/-- An alarm that was due when the poll began, and that nothing has been done with, still is. -/
theorem Polled.alarms_eq (h : Polled s p base mid pending pre suf) (htouch : ∀ e ∈ mid, ¬ e.Touches a)
    (hfire : ∀ b, .fired a b ∉ mid) : alarms s.log a = alarms base a := by
  rw [h.log, alarms_spares fun e he => ⟨htouch e he, fun b hb => hfire b (hb ▸ he)⟩]
  rfl

/-- **The poll passes over a timer** that is not due. -/
theorem Polled.skip (h : Polled s p base mid pending pre (u :: suf)) (hx : ∀ x, alarms s.log u.addr = some x →
      ∀ d, x.due = some d → ¬ d ≤ p.begun) (hu : timerDue (tick p.begun) u = false) :
    Polled { s with poll := some ⟨p.begun, headAddr suf, none⟩ } ⟨p.begun, headAddr suf, none⟩ base mid pending
      (pre ++ [u]) suf := by
  refine ⟨h.log, ?_, rfl, h.inner, fun a ha => h.fresh a (List.mem_cons_of_mem _ ha), nofun, ?_, ?_⟩
  · rw [List.append_assoc]
    exact h.list
  · intro a x d hal hd hle htouch
    by_cases hfired : ∃ b, .fired a b ∈ mid
    · exact .inl hfired
    · obtain hb | ha := h.due a x d hal hd hle htouch
      · exact .inl hb
      obtain rfl | ha := List.mem_cons.mp ha
      · have hsame := h.alarms_eq htouch fun b hb => hfired ⟨b, hb⟩
        exact absurd hle (hx x (hsame.trans hal) d hd)
      · exact .inr ha
  · refine h.pending.imp_right fun ⟨hmid, _, hp⟩ => ⟨hmid, rfl, ?_⟩
    rw [hp, timerPending, List.any_cons, hu, Bool.false_or]
    rfl

/-- **The poll fires a timer** that is due. -/
theorem Polled.fire (h : Polled s p base mid pending pre (u :: suf)) (hwf : TimersWF s.timers.list)
    (hu : timerDue (tick p.begun) u = true) :
    ∃ pre' suf', Polled { s with
        timers := timerFired (tick p.begun) u.addr s.timers
        poll := some ⟨p.begun, headAddr suf, some u.addr⟩
        log := .fired u.addr p.begun :: s.log }
      ⟨p.begun, headAddr suf, some u.addr⟩ base (.fired u.addr p.begun :: mid) pending pre' suf' := by
  obtain ⟨g, hg, hset⟩ := setTimer_map (s := s.timers) u.addr (rearm (tick p.begun))
  have hsuf : (suf.map g).map Timer.addr = suf.map Timer.addr := map_addr_map hg suf
  have hnd := hwf.nodup
  rw [h.list, List.map_append, List.nodup_append] at hnd
  have hahead : u.addr ∉ suf.map Timer.addr := (List.nodup_cons.mp hnd.2.1).1
  refine ⟨(pre ++ [u]).map g, suf.map g, congrArg _ h.log, ?_, (headAddr_map hg suf).symm, ?_, ?_, ?_, ?_,
    .inl ⟨?_, u.addr, p.begun, List.mem_cons_self⟩⟩
  · rw [timerFired, hset]
    rw [← List.map_append, List.append_assoc]
    exact congrArg _ h.list
  · exact List.forall_mem_cons.mpr ⟨rfl, h.inner⟩
  · intro a ha b hb
    rw [hsuf] at ha
    obtain heq | hb := List.mem_cons.mp hb
    · obtain ⟨rfl, -⟩ := Entry.fired.inj heq
      exact hahead ha
    · exact h.fresh a (List.mem_cons_of_mem _ ha) b hb
  · intro a ha
    obtain rfl := Option.some.inj ha
    rw [hsuf]
    exact hahead
  · intro a x d hal hd hle htouch
    rw [hsuf]
    obtain ⟨b, hb⟩ | ha := h.due a x d hal hd hle fun e he => htouch e (List.mem_cons_of_mem _ he)
    · exact .inl ⟨b, List.mem_cons_of_mem _ hb⟩
    · obtain rfl | ha := List.mem_cons.mp ha
      · exact .inl ⟨p.begun, List.mem_cons_self⟩
      · exact .inr ha
  · obtain ⟨hp, -⟩ | ⟨-, -, hp⟩ := h.pending
    · exact hp
    · rw [hp, timerPending, List.any_cons, hu]
      rfl

/-- A timer ahead that is due may fire. -/
theorem Polled.justifies (h : Polled s p base mid pending pre (u :: suf))
    (hx : ∃ x d, alarms s.log u.addr = some x ∧ x.due = some d ∧ d ≤ p.begun) :
    Justifies s.log (.fired u.addr p.begun) := by
  refine ⟨?_, hx, fun mid' b' base' hlog => ⟨?_, fun hone => ?_⟩⟩
  · rw [h.log]
    exact polledAt_append h.inner
  · rw [h.log] at hlog
    obtain ⟨as, hmid, htail⟩ | ⟨as, hmid, htail⟩ := List.append_eq_append_iff.mp hlog
    · cases as with
      | nil => exact nomatch (List.cons.inj htail).1
      | cons e as =>
        obtain ⟨rfl, -⟩ := List.cons.inj htail
        exact ⟨_, _, hmid ▸ List.mem_append_right _ List.mem_cons_self⟩
    · cases as with
      | nil => exact nomatch (List.cons.inj htail).1
      | cons e as =>
        obtain ⟨rfl, -⟩ := List.cons.inj htail
        exact absurd (hmid ▸ List.mem_append_right _ List.mem_cons_self)
          (h.fresh u.addr List.mem_cons_self b')
  · by_contra hnot
    obtain ⟨x, d, hal, hd, -⟩ := hx
    rw [hlog] at hal
    have hnone := alarms_oneShot (fun t ht => hnot ⟨t, ht⟩) hone x hal
    exact nomatch hnone.symm.trans hd

theorem TimerInv.pollNode {b cursor : Nat} (h : TimerInv s) (hp : s.poll = some ⟨b, cursor, none⟩)
    (h0 : cursor ≠ 0) (hs : s.node b cursor = some t) (hin : InTime s .pollNode)
    (hnear : Near s .pollNode) : TimerInv t := by
  obtain ⟨base, mid, pending, pre, suf, hp'⟩ := h.polled _ hp
  cases suf with
  | nil => exact absurd hp'.cursor h0
  | cons u suf =>
    have hnode : Osal.nodeAt cursor s.timers.list = some (u, headAddr suf) := hp'.nodeAt h.wf
    have hu : u ∈ s.timers.list := by
      rw [hp'.list]
      exact List.mem_append_right _ List.mem_cons_self
    obtain ⟨x, hx, his⟩ := h.tracks.timer u hu
    have hiff := timerDue_iff his fun d hd =>
      ⟨hin _ hp u _ hnode x d hx hd, hnear _ hp u _ hnode x d hx hd⟩
    simp only [TimerRun.node, hnode] at hs
    by_cases hd : timerDue (tick b) u = true
    · rw [if_pos hd] at hs
      obtain rfl := Option.some.inj hs
      obtain ⟨d, hdue, hle⟩ := hiff.mp hd
      obtain ⟨g, hg, hset⟩ := setTimer_map (s := s.timers) u.addr (rearm (tick b))
      refine ⟨?_, h.tracks.fired h.wf hu (Bool.and_eq_true_iff.mp hd).1,
        h.justified.cons (hp'.justifies ⟨x, d, hx, hdue, hle⟩), fun p hp => ?_⟩
      · rw [timerFired, hset]
        exact h.wf.map hg
      · obtain rfl := Option.some.inj hp
        obtain ⟨pre', suf', hfire⟩ := hp'.fire h.wf hd
        exact ⟨base, _, pending, pre', suf', hfire⟩
    · rw [if_neg hd] at hs
      obtain rfl := Option.some.inj hs
      refine ⟨h.wf, h.tracks, h.justified, fun p hp => ?_⟩
      obtain rfl := Option.some.inj hp
      refine ⟨base, mid, pending, pre ++ [u], suf, hp'.skip (fun y hy d hdue hle => ?_) ?_⟩
      · obtain rfl := Option.some.inj (hx.symm.trans hy)
        exact hd (hiff.mpr ⟨d, hdue, hle⟩)
      · exact Bool.eq_false_iff.mpr hd

/-- The poll's end: nothing is ahead. -/
theorem TimerInv.pollEnd {b : Nat} (h : TimerInv s) (hp : s.poll = some ⟨b, 0, none⟩) :
    TimerInv { s with poll := none, log := .pollEnded :: s.log } := by
  refine ⟨h.wf, ⟨h.tracks.timer, h.tracks.other⟩, h.justified.cons ?_, nofun⟩
  obtain ⟨base, mid, pending, pre, suf, hp'⟩ := h.polled _ hp
  cases suf with
  | cons u suf =>
    refine absurd ?_ h.wf.nonzero
    rw [hp'.list, List.map_append]
    exact List.mem_append_right _ (List.mem_cons.mpr (.inl hp'.cursor))
  | nil =>
    intro mid' b' pending' base' hlog hinner
    obtain ⟨rfl, rfl, rfl, rfl⟩ := pollBegun_unique (hp'.log.symm.trans hlog) hp'.inner hinner
    refine ⟨?_, fun a x d hx hd hle htouch => ?_⟩
    · obtain ⟨hpend, hfired⟩ | ⟨hmid, -, hpend⟩ := hp'.pending
      · exact ⟨fun _ => hfired, fun _ => hpend⟩
      · rw [hpend, hmid]
        exact ⟨Bool.noConfusion, fun h => h.elim fun _ h => h.elim fun _ h => absurd h List.not_mem_nil⟩
    · exact (hp'.due a x d hx hd hle htouch).resolve_right List.not_mem_nil

/-- **Every step keeps the invariant.** -/
theorem TimerInv.step (h : TimerInv s) (hs : s.Step e t) (hin : InTime s e) (hnear : Near s e) :
    TimerInv t := by
  cases e with
  | pass ms =>
    obtain rfl := Option.some.inj hs
    refine ⟨h.wf, h.tracks, h.justified, fun p hp => ?_⟩
    obtain ⟨base, mid, pending, pre, suf, hp'⟩ := h.polled p hp
    exact ⟨base, mid, pending, pre, suf, hp'.log, hp'.list, hp'.cursor, hp'.inner, hp'.fresh, hp'.own, hp'.due,
      hp'.pending⟩
  | call c =>
    obtain ⟨⟨hc, hreads, hm⟩, ht⟩ := Option.ite_none_right_eq_some.mp hs
    obtain rfl := Option.some.inj ht
    exact h.call hc hreads hm
  | pollBegin =>
    simp only [TimerRun.Step, TimerRun.next] at hs
    split at hs
    · obtain rfl := Option.some.inj hs
      exact h.pollBegin
    · exact nomatch hs
  | pollNode =>
    simp only [TimerRun.Step, TimerRun.next] at hs
    split at hs
    · rename_i begun cursor hp
      obtain ⟨h0, hs⟩ := Option.ite_none_left_eq_some.mp hs
      exact h.pollNode hp h0 hs hin hnear
    · exact nomatch hs
  | callbackEnd =>
    simp only [TimerRun.Step, TimerRun.next] at hs
    split at hs
    · rename_i begun cursor own hp
      obtain rfl := Option.some.inj hs
      refine ⟨h.wf, h.tracks, h.justified, fun p hp' => ?_⟩
      obtain rfl := Option.some.inj hp'
      obtain ⟨base, mid, pending, pre, suf, hq⟩ := h.polled _ hp
      refine ⟨base, mid, pending, pre, suf, hq.log, hq.list, hq.cursor, hq.inner, hq.fresh, nofun, hq.due, ?_⟩
      exact hq.pending.imp_right fun h => nomatch h.2.1
    · exact nomatch hs
  | pollEnd =>
    simp only [TimerRun.Step, TimerRun.next] at hs
    split at hs
    · rename_i begun hp
      obtain rfl := Option.some.inj hs
      exact h.pollEnd hp
    · exact nomatch hs

theorem TimerInv.init (now : Nat) : TimerInv (.start now) := by
  refine ⟨⟨List.nodup_nil, List.not_mem_nil⟩, ⟨fun _ h => absurd h List.not_mem_nil, fun _ _ => rfl⟩, ?_, nofun⟩
  intro post e pre hlog
  exact absurd hlog.symm (List.append_ne_nil_of_right_ne_nil _ (List.cons_ne_nil _ _))

/-- The walk does not stop before its end. -/
theorem TimerInv.proceeds (h : TimerInv s) {b cursor : Nat} (hp : s.poll = some ⟨b, cursor, none⟩) :
    ∃ t, s.Step (if cursor = 0 then .pollEnd else .pollNode) t := by
  by_cases h0 : cursor = 0
  · subst h0
    refine ⟨{ s with poll := none, log := .pollEnded :: s.log }, ?_⟩
    simp only [if_pos, TimerRun.Step, TimerRun.next, hp]
  · obtain ⟨base, mid, pending, pre, suf, hp'⟩ := h.polled _ hp
    cases suf with
    | nil => exact absurd hp'.cursor h0
    | cons u suf =>
      have hnode : Osal.nodeAt cursor s.timers.list = some (u, headAddr suf) := hp'.nodeAt h.wf
      rw [if_neg h0]
      unfold TimerRun.Step TimerRun.next TimerRun.node
      simp only [hp, if_neg h0, hnode]
      split_ifs <;> exact ⟨_, rfl⟩

/-! ## Every run -/

/-- **An alarm that nobody touches goes off in time**: no later than the end of the first poll that begins
once its moment has come. -/
theorem Justified.in_time {mid' post : List Entry} {b : Nat} (h : Justified log)
    (hlog : log = post ++ .pollEnded :: (mid ++ .pollBegun b pending :: (mid' ++ .started a time :: base)))
    (hinner : ∀ e ∈ mid, e.isPoll = false) (hx : alarms base a = some x) (hle : time + x.period ≤ b)
    (htouch : ∀ e ∈ mid ++ mid', ¬ e.Touches a) : ∃ b', .fired a b' ∈ mid ++ mid' := by
  by_cases hfired : ∃ b', .fired a b' ∈ mid'
  · obtain ⟨b', hb'⟩ := hfired
    exact ⟨b', List.mem_append_right _ hb'⟩
  · have hend := (h post .pollEnded _ hlog mid b pending _ rfl hinner).2 a (x.start time) (time + x.period)
    have hbase : alarms (mid' ++ .started a time :: base) a = some (x.start time) := by
      rw [alarms_spares fun e he => ⟨htouch e (List.mem_append_right _ he), fun b' hb' => hfired ⟨b', hb' ▸ he⟩⟩]
      exact (if_pos rfl).trans (congrArg _ hx)
    obtain ⟨b', hb'⟩ := hend hbase rfl hle fun e he => htouch e (List.mem_append_left _ he)
    exact ⟨b', List.mem_append_left _ hb'⟩

/-- **Timers fire as their alarms do**, in every run that polls in time and in which the poll takes none
that is armed too far ahead of its tick: the list holds the alarms; every entry of what has been done is
justified; an alarm that has been started goes off in time; and a poll does not stop before its end. -/
theorem timers_fire (now : Nat) (tr : List TimerEvent) (s : TimerRun)
    (hr : Run (fun s e t => s.Step e t ∧ InTime s e ∧ Near s e) (.start now) tr s) :
    Tracks s.timers.list (alarms s.log) ∧ Justified s.log ∧
      (∀ post mid b pending mid' a time base x,
        s.log = post ++ .pollEnded :: (mid ++ .pollBegun b pending :: (mid' ++ .started a time :: base)) →
        (∀ e ∈ mid, e.isPoll = false) → alarms base a = some x → time + x.period ≤ b →
        (∀ e ∈ mid ++ mid', ¬ e.Touches a) → ∃ b', .fired a b' ∈ mid ++ mid') ∧
      ∀ b cursor, s.poll = some ⟨b, cursor, none⟩ →
        ∃ t, s.Step (if cursor = 0 then .pollEnd else .pollNode) t := by
  have h : TimerInv s := hr.inv (.init now) fun _ _ _ h hs => h.step hs.1 hs.2.1 hs.2.2
  exact ⟨h.tracks, h.justified, fun _ _ _ _ _ _ _ _ _ hlog hinner hx hle htouch =>
    h.justified.in_time hlog hinner hx hle htouch, fun _ _ hp => h.proceeds hp⟩

/-- `LooksAt`, to evaluate. -/
def looksAt (P : Nat → Nat → Bool) (s : TimerRun) : TimerEvent → Bool
  | .pollNode => s.poll.all fun p => (nodeAt p.cursor s.timers.list).all fun r =>
    (alarms s.log r.1.addr).all fun x => x.due.all fun d => P p.begun d
  | _ => true

theorem of_looksAt {P : Nat → Nat → Bool} (h : looksAt P s e = true) :
    LooksAt (fun b d => P b d = true) s e := by
  unfold LooksAt
  split
  · intro p hp t next hnode x d hx hd
    have hall := (Option.all_eq_true _ _).mp h p hp
    rw [hnode, Option.all_some, hx, Option.all_some, hd, Option.all_some] at hall
    exact hall
  · trivial

theorem LooksAt.mono {P Q : Nat → Nat → Prop} (h : LooksAt P s e) (hPQ : ∀ b d, P b d → Q b d) :
    LooksAt Q s e := by
  cases e with
  | pollNode =>
    intro p hp t next hnode x d hx hd
    exact hPQ _ _ (h p hp t next hnode x d hx hd)
  | _ => trivial

/-- The poll's tick and what the timer is armed for are at most 2^31 ms apart. -/
def withinRange (begun due : Nat) : Bool := begun < due + 2 ^ 31 ∧ due ≤ begun + 2 ^ 31

/-- A one-shot timer of 10 ms and one that reloads every 5 ms; in the poll at 10 ms the first one's callback
starts it again and stops the other, which is further on in the list. -/
def restartInCallback : List TimerEvent :=
  [.call (.create 0x200 5 true 0 1), .call (.create 0x100 10 false 0 1), .call (.start 0 0x100),
    .call (.start 0 0x200), .pass 10, .pollBegin, .pollNode, .pass 1, .call (.start 11 0x100),
    .call (.stop 0x200), .callbackEnd, .pollNode, .pollEnd]

/-- The calls of the callback count. -/
theorem timers_fire_restart : ∃ s,
    Run (fun s e t => s.Step e t ∧ InTime s e ∧ Near s e) (.start 0) restartInCallback s ∧
      alarms s.log 0x100 = some ⟨10, false, some 21⟩ ∧ alarms s.log 0x200 = some ⟨5, true, none⟩ ∧
      Tracks s.timers.list (alarms s.log) := by
  have hfold : (restartInCallback.foldlM (fun s e => if looksAt withinRange s e then s.next e else none)
      (TimerRun.start 0)).any (fun s => alarms s.log 0x100 == some ⟨10, false, some 21⟩ &&
        alarms s.log 0x200 == some ⟨5, true, none⟩) = true := by decide
  obtain ⟨s, hr, hs⟩ : ∃ s,
      Run (fun s e t => s.Step e t ∧ InTime s e ∧ Near s e) (.start 0) restartInCallback s ∧
        (alarms s.log 0x100 == some ⟨10, false, some 21⟩ && alarms s.log 0x200 == some ⟨5, true, none⟩) = true :=
    Run.ofFold_any (fun s e t h => by
      obtain ⟨hlooks, hnext⟩ := Option.ite_none_right_eq_some.mp h
      have hrange := of_looksAt hlooks
      exact ⟨hnext, hrange.mono fun _ _ h => (of_decide_eq_true h).1,
        hrange.mono fun _ _ h => (of_decide_eq_true h).2⟩) hfold
  obtain ⟨hone, htwo⟩ := Bool.and_eq_true_iff.mp hs
  exact ⟨s, hr, beq_iff_eq.mp hone, beq_iff_eq.mp htwo, (timers_fire 0 restartInCallback s hr).1⟩

/-- A callback that takes 2 ms starts a timer of the longest period, which is further on in the list. -/
def startedFarAhead : List TimerEvent :=
  [.call (.create 0x200 0x7fffffff false 0 1), .call (.create 0x100 10 false 0 1), .call (.start 0 0x100),
    .pass 10, .pollBegin, .pollNode, .pass 2, .call (.start 12 0x200), .callbackEnd, .pollNode]

/-- The calls that are made have short periods. -/
def short : TimerEvent → Bool
  | .call c => c.Short
  | _ => true

/-- **A timer fires early** where callers do all that is asked of them: the second one's callback runs in
the poll at 10 ms, 2^31 + 1 ms before its moment. -/
theorem fires_early : ¬ ∀ now tr s,
    Run (fun s e t => s.Step e t ∧ Promised s e) (.start now) tr s → Justified s.log := by
  intro h
  have hfold : (startedFarAhead.foldlM (fun s e =>
      if looksAt (fun b d => b < d + 2 ^ 31) s e && short e then s.next e else none)
      (TimerRun.start 0)).any (fun s => s.log.head? == some (.fired 0x200 10) &&
        alarms s.log.tail 0x200 == some ⟨0x7fffffff, false, some (12 + 0x7fffffff)⟩) = true := by decide
  obtain ⟨s, hr, hs⟩ : ∃ s, Run (fun s e t => s.Step e t ∧ Promised s e) (.start 0) startedFarAhead s ∧
      (s.log.head? == some (.fired 0x200 10) &&
        alarms s.log.tail 0x200 == some ⟨0x7fffffff, false, some (12 + 0x7fffffff)⟩) = true :=
    Run.ofFold_any (fun s e t h => by
      obtain ⟨hpromised, hnext⟩ := Option.ite_none_right_eq_some.mp h
      obtain ⟨hlooks, hshort⟩ := Bool.and_eq_true_iff.mp hpromised
      refine ⟨hnext, (of_looksAt hlooks).mono fun _ _ h => of_decide_eq_true h, ?_⟩
      rintro c rfl
      exact of_decide_eq_true hshort) hfold
  obtain ⟨hhead, halarm⟩ := Bool.and_eq_true_iff.mp hs
  obtain ⟨log, hlog⟩ := List.head?_eq_some_iff.mp (beq_iff_eq.mp hhead)
  obtain ⟨-, ⟨x, d, hx, hd, hle⟩, -⟩ := h 0 startedFarAhead s hr [] (.fired 0x200 10) log hlog
  rw [hlog, List.tail_cons, beq_iff_eq, hx] at halarm
  obtain rfl := Option.some.inj halarm
  obtain rfl := Option.some.inj hd
  exact absurd hle (by decide)

end MmHalow.Osal
