import Mathlib.Logic.Basic
import Mathlib.Tactic.SplitIfs

/-!
# The interrupt lines of the transceiver (`mm_halow_hal.c`) and the poll that reads them

The driver has no edge interrupt on BUSY: `mm_halow_hal_irq_pending` compares the line, where its
interrupt is enabled and has a handler, with the sample `busy_seen` it took last. The poll asks it
only where no poll was requested (`mm_halow_poll_func`), so a requested poll takes no sample.

Here a poll is one event: the machine of `Sched.Machine` takes what the detector says as a choice,
and this module says what it is. The lines keep their level during a poll. What the timers and the
tasks of a pass do to the handlers comes as events after it.

* `sampled`: `busy_seen` is the busy condition at the last poll that was not requested.
* `asserted_noticed`: **whenever the busy condition is false at one poll and true at the next, that
  one makes a pass and calls the handler, exactly where no poll is requested while the line is low
  between a sample that saw it high and a poll that has nothing but the line to go by.**
* `asserted_missed`: a run with such a poll.
-/

namespace MmHalow.Hal

/-! ## The lines -/

/-- `MM_HALOW_BUSY_INVERTED`. -/
structure Config where
  busyInverted : Bool
  deriving DecidableEq, Repr

/-- What `mm_halow_hal_pin_read` returns for the two lines. -/
structure Pins where
  busy : Nat
  irq : Nat
  deriving DecidableEq, Repr

/-- `mmhal_wlan_busy_is_asserted`. -/
def busyIsAsserted (cfg : Config) (pins : Pins) : Bool :=
  if cfg.busyInverted then pins.busy == 0 else pins.busy != 0

/-- `mmhal_wlan_spi_irq_is_asserted`: the line is low while the transceiver has data pending. -/
def spiIrqIsAsserted (pins : Pins) : Bool := pins.irq == 0

/-- The interrupt line that a handler is called for. -/
inductive Line where
  | spi
  | busy
  deriving DecidableEq, Repr

/-- The statics of `mm_halow_hal.c`, with `mm_halow_poll_requested`; handlers are values of `H`. -/
structure State (H : Type) where
  spiHandler : Option H
  busyHandler : Option H
  spiEnabled : Bool
  busyEnabled : Bool
  busySeen : Bool
  pollRequested : Bool
  deriving DecidableEq, Repr

variable {H : Type}

/-- The statics at boot. -/
def State.init : State H where
  spiHandler := none
  busyHandler := none
  spiEnabled := false
  busyEnabled := false
  busySeen := false
  pollRequested := false

/-- The IRQ condition: enabled, with a handler, and asserted. -/
def irqCond (pins : Pins) (s : State H) : Bool :=
  s.spiEnabled && s.spiHandler.isSome && spiIrqIsAsserted pins

/-- The busy condition: enabled, with a handler, and asserted. -/
def busyCond (cfg : Config) (pins : Pins) (s : State H) : Bool :=
  s.busyEnabled && s.busyHandler.isSome && busyIsAsserted cfg pins

/-- `mmhal_wlan_set_spi_irq_enabled`, with the call it makes where the line is asserted already. -/
def setSpiIrqEnabled (enabled : Bool) (pins : Pins) (s : State H) : List (Line × H) × State H :=
  let called := if enabled && spiIrqIsAsserted pins then s.spiHandler.toList else []
  (called.map (Line.spi, ·), { s with spiEnabled := enabled })

/-- `mm_halow_hal_irq_pending`. -/
def irqPending (cfg : Config) (pins : Pins) (s : State H) : Bool × State H :=
  let busy := busyCond cfg pins s
  let busyChanged := busy != s.busySeen
  (busyChanged || irqCond pins s, { s with busySeen := busy })

/-- `mm_halow_hal_poll_irqs`: the handlers it calls, in order. -/
def pollIrqs (cfg : Config) (pins : Pins) (s : State H) : List (Line × H) :=
  (if irqCond pins s then s.spiHandler.toList.map (Line.spi, ·) else []) ++
    (if busyCond cfg pins s then s.busyHandler.toList.map (Line.busy, ·) else [])

/-! ## The poll -/

/-- What `mm_halow_poll_func` finds besides the state of this module. -/
structure PollInput where
  pins : Pins
  initted : Bool
  inTask : Bool
  claimed : Bool
  timerPending : Bool
  schedPending : Bool
  deriving DecidableEq, Repr

/-- How a poll goes: it returns before or at the claim, it finds nothing to do, or it makes a full
pass and calls these handlers. -/
inductive Outcome (H : Type) where
  | refused
  | quiet
  | pass (called : List (Line × H))
  deriving DecidableEq, Repr

/-- The full pass of `mm_halow_poll_func`. -/
def fullPass (cfg : Config) (pins : Pins) (s : State H) : Outcome H × State H :=
  let s := { s with pollRequested := false }
  (.pass (pollIrqs cfg pins s), s)

/-- `mm_halow_poll_func`. -/
def pollFunc (cfg : Config) (i : PollInput) (s : State H) : Outcome H × State H :=
  if !i.initted then (.refused, s)
  else if i.inTask then (.refused, s)
  else if !i.claimed then (.refused, s)
  else if s.pollRequested then fullPass cfg i.pins s
  else
    let (pending, s) := irqPending cfg i.pins s
    if pending || i.timerPending || i.schedPending then fullPass cfg i.pins s else (.quiet, s)

/-- What happens to the lines, the handlers and the request. -/
inductive Event (H : Type) where
  | poll (i : PollInput)
  | requestPoll
  | setBusyIrqEnabled (enabled : Bool)
  | registerBusyIrqHandler (handler : Option H)
  | setSpiIrqEnabled (enabled : Bool) (pins : Pins)
  | registerSpiIrqHandler (handler : Option H)
  | deinit
  deriving DecidableEq, Repr

/-- The state after an event; `deinit` is `mmhal_wlan_deinit`. -/
def apply (cfg : Config) (s : State H) : Event H → State H
  | .poll i => (pollFunc cfg i s).2
  | .requestPoll => { s with pollRequested := true }
  | .setBusyIrqEnabled enabled => { s with busyEnabled := enabled }
  | .registerBusyIrqHandler handler => { s with busyHandler := handler }
  | .setSpiIrqEnabled enabled pins => (setSpiIrqEnabled enabled pins s).2
  | .registerSpiIrqHandler handler => { s with spiHandler := handler }
  | .deinit =>
    { s with spiEnabled := false, busyEnabled := false, spiHandler := none, busyHandler := none }

/-! ## The polls of a run -/

/-- A poll that gets the claim: the state it finds, and how it goes. -/
structure Poll (H : Type) where
  input : PollInput
  state : State H
  outcome : Outcome H
  deriving DecidableEq, Repr

/-- The poll gets the claim. -/
def PollInput.served (i : PollInput) : Bool := i.initted && !i.inTask && i.claimed

/-- The polls that get the claim, in order. -/
def polls (cfg : Config) (s : State H) : List (Event H) → List (Poll H)
  | [] => []
  | .poll i :: evs =>
    if i.served then ⟨i, s, (pollFunc cfg i s).1⟩ :: polls cfg (pollFunc cfg i s).2 evs
    else polls cfg s evs
  | e :: evs => polls cfg (apply cfg s e) evs

/-- The busy condition at a poll. -/
def Poll.busy (cfg : Config) (p : Poll H) : Bool := busyCond cfg p.input.pins p.state

/-- The poll was requested. -/
def Poll.requested (p : Poll H) : Bool := p.state.pollRequested

/-- The poll has a reason for a pass besides BUSY. -/
def Poll.due (p : Poll H) : Bool :=
  p.requested || irqCond p.input.pins p.state || p.input.timerPending || p.input.schedPending

/-- The poll makes a full pass and calls the busy handler. -/
def Poll.Noticed (p : Poll H) : Prop :=
  ∃ called h, p.outcome = .pass called ∧ p.state.busyHandler = some h ∧ (Line.busy, h) ∈ called

/-- The busy condition at the last poll that was not requested, `seen` where there is none. -/
def sample (cfg : Config) (seen : Bool) : List (Poll H) → Bool
  | [] => seen
  | p :: ps => sample cfg (if p.requested then seen else p.busy cfg) ps

variable {cfg : Config} {s : State H} {i : PollInput} {p : Poll H} {seen : Bool}

/-! ## What a poll does -/

theorem sample_snoc (ps : List (Poll H)) :
    sample cfg seen (ps ++ [p]) = if p.requested then sample cfg seen ps else p.busy cfg := by
  induction ps generalizing seen with
  | nil => rfl
  | cons q ps ih => exact ih

/-- A pass calls the busy handler where the busy condition holds. -/
theorem mem_pollIrqs (h : busyCond cfg i.pins s = true) :
    ∃ b, s.busyHandler = some b ∧ (Line.busy, b) ∈ pollIrqs cfg i.pins s := by
  cases hb : s.busyHandler with
  | none => simp [busyCond, hb] at h
  | some b =>
    refine ⟨b, rfl, List.mem_append_right _ ?_⟩
    rw [if_pos h, hb]
    exact List.mem_singleton.mpr rfl

theorem PollInput.served_iff :
    i.served = true ↔ i.initted = true ∧ i.inTask = false ∧ i.claimed = true := by
  simp [PollInput.served, and_assoc]

/-- A poll that does not get the claim leaves the lines alone. -/
theorem pollFunc_refused (h : i.served = false) : pollFunc cfg i s = (.refused, s) := by
  unfold pollFunc
  split_ifs with hi ht hc
  · rfl
  · rfl
  · rfl
  all_goals simp_all [PollInput.served]

/-- A requested poll makes a pass, and takes no sample. -/
theorem pollFunc_requested (h : i.served = true) (hr : s.pollRequested = true) :
    pollFunc cfg i s = fullPass cfg i.pins s := by
  obtain ⟨hi, ht, hc⟩ := PollInput.served_iff.mp h
  simp [pollFunc, hi, ht, hc, hr]

/-- **A poll that was not requested takes a sample**, and makes a pass where it has a reason for one
or the sample differs from the last. -/
theorem pollFunc_idle (h : i.served = true) (hr : s.pollRequested = false) :
    pollFunc cfg i s =
      let after := { s with busySeen := busyCond cfg i.pins s }
      if busyCond cfg i.pins s != s.busySeen || irqCond i.pins s || i.timerPending ||
          i.schedPending then
        fullPass cfg i.pins after
      else (.quiet, after) := by
  obtain ⟨hi, ht, hc⟩ := PollInput.served_iff.mp h
  simp [pollFunc, irqPending, hi, ht, hc, hr]

/-- **A poll takes a sample unless it was requested.** -/
theorem busySeen_pollFunc (h : i.served = true) :
    (pollFunc cfg i s).2.busySeen =
      if s.pollRequested then s.busySeen else busyCond cfg i.pins s := by
  cases hr : s.pollRequested with
  | true => rw [pollFunc_requested h hr]; rfl
  | false =>
    rw [pollFunc_idle h hr, if_neg Bool.false_ne_true]
    dsimp only
    split_ifs <;> rfl

/-- Only a poll takes a sample. -/
theorem busySeen_apply {e : Event H} (h : ∀ i, e = .poll i → i.served = false) :
    (apply cfg s e).busySeen = s.busySeen := by
  cases e with
  | poll i => simp only [apply, pollFunc_refused (h i rfl)]
  | _ => rfl

/-! ## What a poll finds -/

/-- A pass notices BUSY. -/
theorem noticed_fullPass (hb : p.busy cfg = true)
    (hout : p.outcome = (fullPass cfg p.input.pins { p.state with busySeen := seen }).1) :
    p.Noticed := by
  obtain ⟨b, hb, hmem⟩ := mem_pollIrqs hb
  exact ⟨_, b, hout, hb, hmem⟩

/-- **BUSY is noticed** where the poll has another reason for a pass or the last sample was low. -/
theorem noticed_iff (h : p.input.served = true) (hb : p.busy cfg = true)
    (hout : p.outcome = (pollFunc cfg p.input p.state).1) :
    p.Noticed ↔ (p.state.busySeen = true → p.due = true) := by
  cases hr : p.state.pollRequested with
  | true =>
    rw [pollFunc_requested h hr] at hout
    refine iff_of_true (noticed_fullPass hb hout) fun _ => ?_
    simp only [Poll.due, Poll.requested, hr, Bool.true_or]
  | false =>
    have hb' : busyCond cfg p.input.pins p.state = true := hb
    rw [pollFunc_idle h hr, hb'] at hout
    dsimp only at hout
    split_ifs at hout with hpass
    · refine iff_of_true (noticed_fullPass hb hout) fun hseen => ?_
      simpa [Poll.due, Poll.requested, hr, hseen] using hpass
    · refine iff_of_false ?_ fun hdue => hpass ?_
      · rintro ⟨called, b, hcalled, -⟩
        exact nomatch hout.symm.trans hcalled
      · cases hseen : p.state.busySeen with
        | false => rfl
        | true => simpa [Poll.due, Poll.requested, hr] using hdue hseen

/-! ## The samples of a run -/

/-- **A poll of a run**: it gets the claim, goes as `mm_halow_poll_func` does from the state it
finds, and `busy_seen` is the sample of the polls before it. -/
theorem polls_split {evs : List (Event H)} {pre post : List (Poll H)}
    (h : polls cfg s evs = pre ++ p :: post) :
    p.input.served = true ∧ p.outcome = (pollFunc cfg p.input p.state).1 ∧
      p.state.busySeen = sample cfg s.busySeen pre := by
  induction evs generalizing s pre with
  | nil => exact absurd h.symm (List.append_ne_nil_of_right_ne_nil pre (List.cons_ne_nil p post))
  | cons e evs ih =>
    have other : (∀ i, e = .poll i → i.served = false) →
        polls cfg (apply cfg s e) evs = pre ++ p :: post →
        p.input.served = true ∧ p.outcome = (pollFunc cfg p.input p.state).1 ∧
          p.state.busySeen = sample cfg s.busySeen pre := by
      intro he h
      have hsame : (apply cfg s e).busySeen = s.busySeen := busySeen_apply he
      rw [← hsame]
      exact ih h
    cases e with
    | poll i =>
      cases hi : i.served with
      | true =>
        simp only [polls, hi, if_true] at h
        cases pre with
        | nil =>
          obtain ⟨rfl, -⟩ := List.cons.inj h
          exact ⟨hi, rfl, rfl⟩
        | cons q pre =>
          obtain ⟨rfl, hrest⟩ := List.cons.inj h
          obtain ⟨hserved, hout, hseen⟩ := ih hrest
          refine ⟨hserved, hout, ?_⟩
          rw [hseen, busySeen_pollFunc hi]
          rfl
      | false =>
        refine other (fun j hj => ?_) ?_
        · obtain rfl := Event.poll.inj hj
          exact hi
        · have hskip : polls cfg s (.poll i :: evs) = polls cfg s evs := by
            rw [polls, hi, if_neg Bool.false_ne_true]
          rw [← h, hskip, apply, pollFunc_refused hi]
    | _ => exact other nofun h

/-- **`busy_seen` is the sample of the polls so far.** -/
theorem sampled {evs : List (Event H)} {pre post : List (Poll H)}
    (h : polls cfg .init evs = pre ++ p :: post) : p.state.busySeen = sample cfg false pre :=
  (polls_split h).2.2

/-- **BUSY assertions and idle polls**: every assertion between two polls is noticed exactly where
no poll that was requested, and found the line low after a sample that saw it high, is followed by
one that finds it high and has no other reason for a pass. -/
theorem asserted_noticed (cfg : Config) (evs : List (Event H)) :
    (∀ pre p q post, polls cfg .init evs = pre ++ p :: q :: post →
        p.busy cfg = false → q.busy cfg = true → q.Noticed) ↔
      ∀ pre p q post, polls cfg .init evs = pre ++ p :: q :: post →
        p.busy cfg = false → q.busy cfg = true →
          p.requested = true → sample cfg false pre = true → q.due = true := by
  refine forall₅_congr fun pre p q post h => forall₂_congr fun hp hq => ?_
  have h' : polls cfg .init evs = (pre ++ [p]) ++ q :: post := by rw [h, List.append_assoc]; rfl
  obtain ⟨hserved, hout, -⟩ := polls_split h'
  rw [noticed_iff hserved hq hout, sampled h', sample_snoc, hp]
  cases p.requested with
  | true => simp
  | false => simp

/-- A poll that gets the claim, with nothing pending in the scheduler and no timer due; the IRQ line
is high. -/
def idlePoll (busy : Nat) : PollInput where
  pins := ⟨busy, 1⟩
  initted := true
  inTask := false
  claimed := true
  timerPending := false
  schedPending := false

/-- BUSY is high at a poll, low at a poll that was requested, and high again at the next. -/
def pulse : List (Event Unit) :=
  [.registerBusyIrqHandler (some ()), .setBusyIrqEnabled true, .poll (idlePoll 1), .requestPoll,
    .poll (idlePoll 0), .poll (idlePoll 1)]

/-- The last poll of `pulse` is quiet. -/
theorem asserted_missed :
    ¬ ∀ pre p q post, polls ⟨false⟩ .init pulse = pre ++ p :: q :: post →
        p.busy ⟨false⟩ = false → q.busy ⟨false⟩ = true → q.Noticed := by
  intro h
  obtain ⟨called, b, hout, -⟩ := h [_] _ _ [] rfl rfl rfl
  exact nomatch hout

end MmHalow.Hal
