import Mathlib.Data.List.Nodup
import MmHalow.Lib.Clock
import MmHalow.Lib.Run

/-!
# The timers of the OSAL

`mm_halow_timer_list` in the order of the `next` pointers, each timer with the address of its
node. `mmosal_timer_create` puts the node the heap returned in front, `mmosal_timer_delete`
unlinks a node and gives it back to the heap. `freed` records what was given back.

| source                           | here               |
|----------------------------------|--------------------|
| `mmosal_timer_create`            | `timerCreate`      |
| `mmosal_timer_delete`            | `timerDelete`      |
| `mmosal_timer_start`             | `timerStart`       |
| `mmosal_timer_stop`              | `timerStop`        |
| `mmosal_timer_change_period`     | `timerChangePeriod`|
| `mm_halow_osal_timer_pending`    | `timerPending`     |
| `mm_halow_osal_timer_poll`       | `pollStart`, `pollBody` |

A callback makes calls (`TimerCall`) on any timers. One iteration of the poll reads the node at
the saved pointer, saves its `next`, and runs the callback if the timer is due.

* `pollBody_spec`: an iteration whose callback does not delete the saved `next` leaves only nodes
  ahead that are on the list and were not freed in this poll (`Ahead`).
* `timer_poll_safe_iff`: **a poll only reads live nodes, none of them freed in it, exactly when
  none of its callbacks deletes the node saved as `next`.**
-/

namespace MmHalow.Osal

open MmHalow.Lib MmHalow.Lib.Clock

/-- `struct mmosal_timer`, with the address of its node. -/
structure Timer where
  addr : Nat
  periodMs : UInt32
  expiresAt : UInt32
  autoReload : Bool
  active : Bool
  arg : Nat
  callback : Nat
  deriving Repr, DecidableEq

/-- The timer list, and the nodes `mmosal_timer_delete` gave back to the heap. -/
structure Timers where
  list : List Timer
  freed : List Nat
  deriving Repr, DecidableEq

/-- `mmosal_timer_create`, `p` being what the heap returned for the node. -/
def timerCreate (p : Nat) (timerPeriodMs : UInt32) (autoReload : Bool) (arg callback : Nat)
    (s : Timers) : Timers :=
  if p = 0 then s
  else { s with list := ⟨p, timerPeriodMs, 0, autoReload, false, arg, callback⟩ :: s.list }

/-- `mmosal_timer_delete`. -/
def timerDelete (timer : Nat) (s : Timers) : Timers :=
  if timer = 0 then s
  else ⟨s.list.eraseP fun t => t.addr = timer, timer :: s.freed⟩

/-- Write the fields of the node at `timer`. -/
def setTimer (timer : Nat) (f : Timer → Timer) (l : List Timer) : List Timer :=
  l.map fun t => if t.addr = timer then { f t with addr := t.addr } else t

/-- `mmosal_timer_start` at tick `now`. -/
def timerStart (now : UInt32) (timer : Nat) (s : Timers) : Bool × Timers :=
  if timer = 0 then (false, s)
  else
    let started (t : Timer) := { t with expiresAt := now + t.periodMs, active := true }
    (true, { s with list := setTimer timer started s.list })

/-- `mmosal_timer_stop`. -/
def timerStop (timer : Nat) (s : Timers) : Bool × Timers :=
  if timer = 0 then (false, s)
  else (true, { s with list := setTimer timer (fun t => { t with active := false }) s.list })

/-- `mmosal_timer_change_period` at tick `now`. -/
def timerChangePeriod (now : UInt32) (timer : Nat) (newPeriod : UInt32) (s : Timers) :
    Bool × Timers :=
  if timer = 0 then (false, s)
  else
    let changed (t : Timer) :=
      { t with
        periodMs := newPeriod
        expiresAt := if t.active then now + newPeriod else t.expiresAt }
    (true, { s with list := setTimer timer changed s.list })

/-- A call of a timer callback on the timers. `create` carries what the heap returned, `start`
and `changePeriod` the tick they read. -/
inductive TimerCall where
  | create (p : Nat) (periodMs : UInt32) (autoReload : Bool) (arg callback : Nat)
  | delete (timer : Nat)
  | start (now : UInt32) (timer : Nat)
  | stop (timer : Nat)
  | changePeriod (now : UInt32) (timer : Nat) (newPeriod : UInt32)
  deriving Repr, DecidableEq

/-- The effect of a call on the timers. -/
def TimerCall.exec : TimerCall → Timers → Timers
  | .create p periodMs autoReload arg callback => timerCreate p periodMs autoReload arg callback
  | .delete timer => timerDelete timer
  | .start now timer => fun s => (timerStart now timer s).2
  | .stop timer => fun s => (timerStop timer s).2
  | .changePeriod now timer newPeriod => fun s => (timerChangePeriod now timer newPeriod s).2

/-- The effect of a callback's calls, in order. -/
def execCalls (calls : List TimerCall) (s : Timers) : Timers :=
  calls.foldl (fun s c => c.exec s) s

/-- `timer` is `NULL` or a timer that has not been deleted. -/
def Handle (l : List Timer) (timer : Nat) : Prop := timer = 0 ∨ timer ∈ l.map Timer.addr

/-- What a call may name: a node the heap returns is not one that is on the list, any other
handle is `NULL` or a live timer. -/
def TimerCall.Legal (l : List Timer) : TimerCall → Prop
  | .create p .. => p ∉ l.map Timer.addr
  | .delete timer => Handle l timer
  | .start _ timer => Handle l timer
  | .stop timer => Handle l timer
  | .changePeriod _ timer _ => Handle l timer

instance (l : List Timer) (timer : Nat) : Decidable (Handle l timer) :=
  inferInstanceAs (Decidable (_ ∨ _))

instance (l : List Timer) : (c : TimerCall) → Decidable (c.Legal l)
  | .create p .. => inferInstanceAs (Decidable (p ∉ l.map Timer.addr))
  | .delete timer => inferInstanceAs (Decidable (Handle l timer))
  | .start _ timer => inferInstanceAs (Decidable (Handle l timer))
  | .stop timer => inferInstanceAs (Decidable (Handle l timer))
  | .changePeriod _ timer _ => inferInstanceAs (Decidable (Handle l timer))

/-- Each call of a callback is legal where it is made. -/
def LegalCalls : List TimerCall → Timers → Prop
  | [], _ => True
  | c :: calls, s => c.Legal s.list ∧ LegalCalls calls (c.exec s)

/-! ## The poll -/

/-- `timer->active && (int32_t)(now - timer->expires_at) >= 0`. -/
def timerDue (now : UInt32) (t : Timer) : Bool := t.active && reached now t.expiresAt

/-- `mm_halow_osal_timer_pending` at tick `now`. -/
def timerPending (now : UInt32) (l : List Timer) : Bool := l.any (timerDue now)

/-- The address a `next` pointer to this list holds. -/
def headAddr : List Timer → Nat
  | [] => 0
  | t :: _ => t.addr

/-- The node at an address, and its `next`; `none` where no live node stands. -/
def nodeAt (p : Nat) : List Timer → Option (Timer × Nat)
  | [] => none
  | t :: l => if t.addr = p then some (t, headAddr l) else nodeAt p l

/-- The poll's own update of a timer that fires. -/
def rearm (now : UInt32) (t : Timer) : Timer :=
  if t.autoReload then { t with expiresAt := now + t.periodMs } else { t with active := false }

/-- The poll between two iterations: `cursor` is its variable `timer`, and `timers.freed` what
was freed since it began. -/
structure Poll where
  timers : Timers
  cursor : Nat
  deriving Repr, DecidableEq

/-- `mm_halow_osal_timer_poll` before the first iteration. -/
def pollStart (l : List Timer) : Poll := ⟨⟨l, []⟩, headAddr l⟩

/-- What an iteration did: pass over a timer, or run its callback, which made `calls`. -/
inductive PollEvent where
  | skip (timer : Nat)
  | fire (timer next : Nat) (calls : List TimerCall)
  deriving Repr, DecidableEq

/-- The timers after the poll's own update of the timer at `timer`, as its callback finds them. -/
def timerFired (now : UInt32) (timer : Nat) (s : Timers) : Timers :=
  { s with list := setTimer timer (rearm now) s.list }

/-- One iteration of `mm_halow_osal_timer_poll` at tick `now`, a callback making `calls`; `none`
when it reads a node that is not live. A callback is followed by `mm_halow_sched_wake`. -/
def pollBody (now : UInt32) (calls : List TimerCall) (p : Poll) : Option (PollEvent × Poll) :=
  match nodeAt p.cursor p.timers.list with
  | none => none
  | some (t, next) =>
    if timerDue now t then
      some (.fire t.addr next calls, ⟨execCalls calls (timerFired now t.addr p.timers), next⟩)
    else some (.skip t.addr, ⟨p.timers, next⟩)

/-- An iteration with any legal behaviour of the callback. -/
def PollStep (now : UInt32) (p : Poll) (e : PollEvent) (q : Poll) : Prop :=
  p.cursor ≠ 0 ∧ ∃ calls, LegalCalls calls (timerFired now p.cursor p.timers) ∧
    pollBody now calls p = some (e, q)

/-- The next node the poll reads is on the list, and was not freed earlier in the poll. -/
def Poll.Safe (p : Poll) : Prop :=
  p.cursor = 0 ∨ p.cursor ∈ p.timers.list.map Timer.addr ∧ p.cursor ∉ p.timers.freed

instance (p : Poll) : Decidable p.Safe := inferInstanceAs (Decidable (_ ∨ _))

/-- The callback does not delete the node the poll has saved as `next`. -/
def PollEvent.SparesNext : PollEvent → Prop
  | .skip _ => True
  | .fire _ next calls => next = 0 ∨ TimerCall.delete next ∉ calls

instance : (e : PollEvent) → Decidable e.SparesNext
  | .skip _ => inferInstanceAs (Decidable True)
  | .fire _ _ _ => inferInstanceAs (Decidable (_ ∨ _))

/-- Nodes of a timer list are distinct and not at `NULL`. -/
structure TimersWF (l : List Timer) : Prop where
  nodup : (l.map Timer.addr).Nodup
  nonzero : 0 ∉ l.map Timer.addr

variable {s : Timers} {l : List Timer} {c : TimerCall} {now : UInt32} {p q : Poll} {e : PollEvent}

/-! ## One call -/

/-- Writing fields keeps every node at its address. -/
theorem setTimer_map (a : Nat) (f : Timer → Timer) :
    ∃ g : Timer → Timer, (∀ t, (g t).addr = t.addr) ∧
      ({ s with list := setTimer a f s.list } : Timers) = { s with list := s.list.map g } := by
  refine ⟨fun t => if t.addr = a then { f t with addr := t.addr } else t, fun t => ?_, rfl⟩
  by_cases h : t.addr = a
  · simp only [if_pos h]
  · simp only [if_neg h]

/-- **What a call can do**: put a new node in front, unlink and free a node, or write fields. -/
theorem TimerCall.exec_cases (hc : c.Legal s.list) :
    (∃ t : Timer, t.addr ≠ 0 ∧ t.addr ∉ s.list.map Timer.addr ∧
      c.exec s = { s with list := t :: s.list }) ∨
    (∃ a, a ≠ 0 ∧ c = .delete a ∧
      c.exec s = ⟨s.list.eraseP fun t => t.addr = a, a :: s.freed⟩) ∨
    (∃ f : Timer → Timer, (∀ t, (f t).addr = t.addr) ∧
      c.exec s = { s with list := s.list.map f }) := by
  have hnop : ∃ f : Timer → Timer, (∀ t, (f t).addr = t.addr) ∧
      s = { s with list := s.list.map f } := ⟨id, fun _ => rfl, by rw [List.map_id]⟩
  cases c with
  | create a periodMs autoReload arg callback =>
    by_cases ha : a = 0
    · exact Or.inr (Or.inr (by simpa only [exec, timerCreate, if_pos ha] using hnop))
    · exact Or.inl ⟨⟨a, periodMs, 0, autoReload, false, arg, callback⟩, ha, hc, if_neg ha⟩
  | delete a =>
    by_cases ha : a = 0
    · exact Or.inr (Or.inr (by simpa only [exec, timerDelete, if_pos ha] using hnop))
    · exact Or.inr (Or.inl ⟨a, ha, rfl, if_neg ha⟩)
  | start now a =>
    by_cases ha : a = 0
    · exact Or.inr (Or.inr (by simpa only [exec, timerStart, if_pos ha] using hnop))
    · exact Or.inr (Or.inr (by simpa only [exec, timerStart, if_neg ha] using setTimer_map a _))
  | stop a =>
    by_cases ha : a = 0
    · exact Or.inr (Or.inr (by simpa only [exec, timerStop, if_pos ha] using hnop))
    · exact Or.inr (Or.inr (by simpa only [exec, timerStop, if_neg ha] using setTimer_map a _))
  | changePeriod now a n =>
    by_cases ha : a = 0
    · exact Or.inr (Or.inr (by simpa only [exec, timerChangePeriod, if_pos ha] using hnop))
    · exact Or.inr (Or.inr
        (by simpa only [exec, timerChangePeriod, if_neg ha] using setTimer_map a _))

theorem map_addr_map {f : Timer → Timer} (hf : ∀ t, (f t).addr = t.addr) (l : List Timer) :
    (l.map f).map Timer.addr = l.map Timer.addr := by
  rw [List.map_map]
  exact List.map_congr_left fun t _ => hf t

theorem headAddr_map {f : Timer → Timer} (hf : ∀ t, (f t).addr = t.addr) (l : List Timer) :
    headAddr (l.map f) = headAddr l := by
  cases l with
  | nil => rfl
  | cons t l => exact hf t

theorem mem_erase_addr {a b : Nat} (h : b ∈ (l.eraseP fun t => t.addr = a).map Timer.addr) :
    b ∈ l.map Timer.addr :=
  (List.eraseP_sublist.map _).subset h

theorem TimersWF.map {f : Timer → Timer} (hf : ∀ t, (f t).addr = t.addr) (h : TimersWF l) :
    TimersWF (l.map f) :=
  ⟨by rw [map_addr_map hf]; exact h.nodup, by rw [map_addr_map hf]; exact h.nonzero⟩

theorem TimersWF.exec (h : TimersWF s.list) (hc : c.Legal s.list) : TimersWF (c.exec s).list := by
  obtain ⟨t, h0, hn, he⟩ | ⟨a, -, -, he⟩ | ⟨f, hf, he⟩ := TimerCall.exec_cases hc
  · rw [he]
    refine ⟨List.nodup_cons.mpr ⟨hn, h.nodup⟩, fun h' => ?_⟩
    rcases List.mem_cons.mp h' with h' | h'
    · exact h0 h'.symm
    · exact h.nonzero h'
  · rw [he]
    exact ⟨(List.eraseP_sublist.map _).nodup h.nodup, fun h' => h.nonzero (mem_erase_addr h')⟩
  · rw [he]
    exact h.map hf

/-! ## The rest of the walk -/

/-- A node that was unlinked is not on the list any more. -/
theorem not_mem_erase_addr {a : Nat} (h : (l.map Timer.addr).Nodup) :
    a ∉ (l.eraseP fun t => t.addr = a).map Timer.addr := by
  induction l with
  | nil => exact List.not_mem_nil
  | cons t l ih =>
    obtain ⟨ht, hl⟩ := List.nodup_cons.mp h
    by_cases ha : t.addr = a
    · rw [List.eraseP_cons_of_pos (by simpa using ha), ← ha]
      exact ht
    · rw [List.eraseP_cons_of_neg (by simpa using ha)]
      exact List.not_mem_cons_of_ne_of_not_mem (fun h => ha h.symm) (ih hl)

/-- The walk at `cursor` has a tail of the list ahead, with no node freed since it began. -/
def Ahead (s : Timers) (cursor : Nat) : Prop :=
  ∃ pre suf, s.list = pre ++ suf ∧ cursor = headAddr suf ∧ ∀ t ∈ suf, t.addr ∉ s.freed

theorem Ahead.map {f : Timer → Timer} (hf : ∀ t, (f t).addr = t.addr) {n : Nat} (h : Ahead s n) :
    Ahead { s with list := s.list.map f } n := by
  obtain ⟨pre, suf, hl, rfl, hsuf⟩ := h
  refine ⟨pre.map f, suf.map f, ?_, (headAddr_map hf suf).symm, fun t ht => ?_⟩
  · rw [← List.map_append, ← hl]
  · obtain ⟨u, hu, rfl⟩ := List.mem_map.mp ht
    rw [hf]
    exact hsuf u hu

/-- Only the deletion of the node at the cursor can disturb the walk. -/
theorem Ahead.exec {n : Nat} (h : Ahead s n) (hwf : TimersWF s.list) (hc : c.Legal s.list)
    (hn : n = 0 ∨ c ≠ .delete n) : Ahead (c.exec s) n := by
  obtain ⟨pre, suf, hl, rfl, hsuf⟩ := h
  obtain ⟨t, -, -, he⟩ | ⟨a, h0, rfl, he⟩ | ⟨f, hf, he⟩ := TimerCall.exec_cases hc
  · rw [he]
    exact ⟨t :: pre, suf, by rw [hl]; rfl, rfl, hsuf⟩
  · have hnd := hwf.nodup
    rw [hl, List.map_append, List.nodup_append] at hnd
    rw [he, hl]
    by_cases ha : a ∈ pre.map Timer.addr
    · -- a node behind the cursor: the tail keeps its place
      obtain ⟨u, hu, rfl⟩ := List.mem_map.mp ha
      refine ⟨pre.eraseP fun t => t.addr = u.addr, suf, ?_, rfl, fun t ht => ?_⟩
      · exact List.eraseP_append_left (by simp) _ hu
      · exact List.not_mem_cons_of_ne_of_not_mem
          (fun h => hnd.2.2 _ ha _ (List.mem_map_of_mem ht) h.symm) (hsuf t ht)
    · -- a node after the cursor: the head of the tail stays
      have hpre : ∀ t ∈ pre, ¬(decide (t.addr = a) = true) := fun t ht h =>
        ha (List.mem_map.mpr ⟨t, ht, of_decide_eq_true h⟩)
      refine ⟨pre, suf.eraseP fun t => t.addr = a, List.eraseP_append_right _ hpre, ?_, ?_⟩
      · cases suf with
        | nil => rfl
        | cons t suf =>
          have hta : t.addr ≠ a := by
            rintro rfl
            exact hn.elim h0 fun h => h rfl
          rw [List.eraseP_cons_of_neg (by simpa using hta)]
          rfl
      · intro t ht hf
        rcases List.mem_cons.mp hf with h | h
        · exact not_mem_erase_addr hnd.2.1 (h ▸ List.mem_map_of_mem ht)
        · exact hsuf t (List.eraseP_sublist.subset ht) h
  · rw [he]
    exact Ahead.map hf ⟨pre, suf, hl, rfl, hsuf⟩

/-! ## The walk -/

/-- What one iteration of the poll relies on. -/
structure PollInv (p : Poll) : Prop where
  wf : TimersWF p.timers.list
  ahead : Ahead p.timers p.cursor

theorem nodeAt_append {pre suf : List Timer} {t : Timer} (h : t.addr ∉ pre.map Timer.addr) :
    nodeAt t.addr (pre ++ t :: suf) = some (t, headAddr suf) := by
  induction pre with
  | nil => exact if_pos rfl
  | cons u pre ih =>
    obtain ⟨hu, hpre⟩ := List.ne_and_not_mem_of_not_mem_cons h
    exact (if_neg fun h => hu h.symm).trans (ih hpre)

/-- The calls of a callback disturb the walk only by deleting the saved node. -/
theorem Ahead.execCalls {n : Nat} {calls : List TimerCall} (h : Ahead s n)
    (hwf : TimersWF s.list) (hc : LegalCalls calls s) (hn : n = 0 ∨ TimerCall.delete n ∉ calls) :
    TimersWF (execCalls calls s).list ∧ Ahead (execCalls calls s) n := by
  induction calls generalizing s with
  | nil => exact ⟨hwf, h⟩
  | cons c calls ih =>
    have hn' : n = 0 ∨ c ≠ .delete n := hn.imp_right fun h e => h (e ▸ List.mem_cons_self)
    exact ih (h.exec hwf hc.1 hn') (hwf.exec hc.1) hc.2
      (hn.imp_right fun h => fun h' => h (List.mem_cons_of_mem _ h'))

/-- The poll begins with the whole list ahead. -/
theorem PollInv.start (h : TimersWF l) : PollInv (pollStart l) :=
  ⟨h, [], l, rfl, rfl, fun _ _ => List.not_mem_nil⟩

/-- Under the invariant the cursor is at a live node, or the walk is over. -/
theorem PollInv.safe (h : PollInv p) : p.Safe := by
  obtain ⟨pre, suf, hl, hc, hf⟩ := h.ahead
  cases suf with
  | nil => exact Or.inl hc
  | cons t suf =>
    refine Or.inr ⟨?_, hc ▸ hf t List.mem_cons_self⟩
    rw [hc, hl]
    exact List.mem_map_of_mem (List.mem_append_right _ List.mem_cons_self)

/-- **One iteration**: if its callback spares the node saved as `next`, the rest of the walk is
still on the list and unfreed. -/
theorem pollBody_spec (h : PollInv p) (hs : PollStep now p e q) (he : e.SparesNext) :
    PollInv q := by
  obtain ⟨h0, calls, hlegal, hb⟩ := hs
  obtain ⟨pre, suf, hl, hc, hf⟩ := h.ahead
  cases suf with
  | nil => exact absurd hc h0
  | cons t suf =>
    have hnd := h.wf.nodup
    rw [hl, List.map_append, List.nodup_append] at hnd
    have hpre : t.addr ∉ pre.map Timer.addr := fun hin =>
      hnd.2.2 _ hin _ List.mem_cons_self rfl
    have hnode : nodeAt p.cursor p.timers.list = some (t, headAddr suf) := by
      rw [hl, hc]
      exact nodeAt_append hpre
    have hahead : Ahead p.timers (headAddr suf) :=
      ⟨pre ++ [t], suf, by rw [hl, List.append_assoc]; rfl, rfl,
        fun u hu => hf u (List.mem_cons_of_mem _ hu)⟩
    simp only [pollBody, hnode] at hb
    by_cases hd : timerDue now t = true
    · rw [if_pos hd] at hb
      obtain ⟨rfl, rfl⟩ := Prod.mk.inj (Option.some.inj hb)
      -- the poll's own update is a write of fields
      obtain ⟨g, hg, hset⟩ := setTimer_map (s := p.timers) t.addr (rearm now)
      have hwf' : TimersWF (timerFired now t.addr p.timers).list := by
        rw [timerFired, hset]
        exact h.wf.map hg
      have hahead' : Ahead (timerFired now t.addr p.timers) (headAddr suf) := by
        rw [timerFired, hset]
        exact hahead.map hg
      rw [hc] at hlegal
      obtain ⟨hw, ha⟩ := hahead'.execCalls hwf' hlegal he
      exact ⟨hw, ha⟩
    · rw [if_neg hd] at hb
      obtain ⟨rfl, rfl⟩ := Prod.mk.inj (Option.some.inj hb)
      exact ⟨h.wf, hahead⟩

/-- No call takes a node back from the heap. -/
theorem TimerCall.freed_exec {a : Nat} (h : a ∈ s.freed) : a ∈ (c.exec s).freed := by
  cases c with
  | create b =>
    by_cases hb : b = 0 <;> simpa [exec, timerCreate, hb] using h
  | delete b =>
    by_cases hb : b = 0
    · simpa [exec, timerDelete, hb] using h
    · simp [exec, timerDelete, hb, h]
  | start _ b => by_cases hb : b = 0 <;> simpa [exec, timerStart, hb] using h
  | stop b => by_cases hb : b = 0 <;> simpa [exec, timerStop, hb] using h
  | changePeriod _ b => by_cases hb : b = 0 <;> simpa [exec, timerChangePeriod, hb] using h

/-- A deleted node stays freed to the end of the callback. -/
theorem freed_execCalls {a : Nat} {calls : List TimerCall}
    (h : a ∈ s.freed ∨ a ≠ 0 ∧ TimerCall.delete a ∈ calls) : a ∈ (execCalls calls s).freed := by
  induction calls generalizing s with
  | nil => exact h.elim id fun h => absurd h.2 List.not_mem_nil
  | cons c calls ih =>
    refine ih ?_
    rcases h with h | ⟨h0, h⟩
    · exact Or.inl (TimerCall.freed_exec h)
    · rcases List.mem_cons.mp h with rfl | h
      · exact Or.inl (by simp [TimerCall.exec, timerDelete, h0])
      · exact Or.inr ⟨h0, h⟩

/-- A callback that deletes the saved node leaves the poll at a freed one. -/
theorem not_safe_of_deletes (hs : PollStep now p e q) (he : ¬ e.SparesNext) : ¬ q.Safe := by
  obtain ⟨-, calls, -, hb⟩ := hs
  unfold pollBody at hb
  cases hn : nodeAt p.cursor p.timers.list with
  | none => simp [hn] at hb
  | some r =>
    rw [hn] at hb
    by_cases hd : timerDue now r.1 = true
    · simp only [if_pos hd] at hb
      obtain ⟨rfl, rfl⟩ := Prod.mk.inj (Option.some.inj hb)
      simp only [PollEvent.SparesNext, not_or, not_not] at he
      rintro (h0 | ⟨-, hf⟩)
      · exact he.1 h0
      · exact hf (freed_execCalls (Or.inr he))
    · simp only [if_neg hd] at hb
      obtain ⟨rfl, rfl⟩ := Prod.mk.inj (Option.some.inj hb)
      exact absurd trivial he

theorem PollInv.run {tr : List PollEvent} (hl : TimersWF l)
    (h : Run (PollStep now) (pollStart l) tr p) (hs : ∀ e ∈ tr, e.SparesNext) : PollInv p := by
  refine h.inv_trace (I := fun tr p => (∀ e ∈ tr, e.SparesNext) → PollInv p)
    (fun _ => PollInv.start hl) (fun tr p e q _ ih hpq hs => ?_) hs
  exact pollBody_spec (ih fun e he => hs e (List.mem_append_left _ he)) hpq
    (hs e (List.mem_append_right _ (List.mem_singleton.mpr rfl)))

/-- **Timer poll safety.** In a run of `mm_halow_osal_timer_poll` over any timer list, at any tick
and with any callbacks, every node the walk comes to is live and was not freed earlier in the
poll exactly when no callback deletes the node the poll has saved as `next`. -/
theorem timer_poll_safe_iff {tr : List PollEvent} (hl : TimersWF l)
    (h : Run (PollStep now) (pollStart l) tr p) :
    (∀ tr' q, tr' <+: tr → Run (PollStep now) (pollStart l) tr' q → q.Safe) ↔
      ∀ e ∈ tr, e.SparesNext := by
  constructor
  · intro hsafe e he
    by_contra hne
    obtain ⟨tr₁, tr₂, rfl⟩ := List.append_of_mem he
    obtain ⟨q, hq, h⟩ := h.split
    obtain ⟨r, hqr, -⟩ := h.uncons
    refine not_safe_of_deletes hqr hne (hsafe (tr₁ ++ [e]) r ?_ (hq.snoc hqr))
    exact ⟨tr₂, by rw [List.append_assoc]; rfl⟩
  · intro hs tr' q hpre hq
    exact (PollInv.run hl hq fun e he => hs e (hpre.subset he)).safe

/-- Two one-shot timers that have expired at tick 5. -/
def twoTimers : List Timer :=
  [⟨0x100, 10, 5, false, true, 0, 0x1001⟩, ⟨0x200, 10, 5, false, true, 0, 0x1001⟩]

theorem twoTimers_wf : TimersWF twoTimers := ⟨by decide, by decide⟩

/-- The poll of `twoTimers` whose first callback makes the call `c`. -/
theorem twoTimers_run {c : TimerCall} {q : Poll} (hc : c.Legal twoTimers)
    (h : pollBody 5 [c] (pollStart twoTimers) = some (.fire 0x100 0x200 [c], q)) :
    Run (PollStep 5) (pollStart twoTimers) [.fire 0x100 0x200 [c]] q := by
  refine Run.single ⟨by decide, [c], ⟨?_, trivial⟩, h⟩
  cases c <;> exact hc

/-- A callback may delete its own timer: the poll of two timers stays safe. -/
theorem timer_poll_safe_self_delete : TimersWF twoTimers ∧
    ∀ tr' q, tr' <+: [.fire 0x100 0x200 [.delete 0x100]] →
      Run (PollStep 5) (pollStart twoTimers) tr' q → q.Safe :=
  ⟨twoTimers_wf,
    (timer_poll_safe_iff twoTimers_wf (twoTimers_run (by decide) rfl)).mpr (by decide)⟩

/-- A callback that deletes the timer after its own leaves the poll at a freed node. -/
theorem timer_poll_unsafe :
    ¬ ∀ (l : List Timer) (now : UInt32) (tr : List PollEvent) (p : Poll), TimersWF l →
      Run (PollStep now) (pollStart l) tr p → p.Safe := by
  intro h
  refine absurd (h twoTimers 5 [.fire 0x100 0x200 [.delete 0x200]] _ twoTimers_wf
    (twoTimers_run (by decide) rfl)) ?_
  decide

end MmHalow.Osal
