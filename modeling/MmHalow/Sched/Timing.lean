import MmHalow.Lib.Run
import MmHalow.Sched.Wait

/-!
# How long a wait takes (`mm_halow_sched_wait`, `mmosal_task_sleep`)

A wait of its own: its steps, the milliseconds that pass between them and the results of its
condition, which may be any. The clock counts without end and the driver reads its low word.

* `wait_result`: a wait that is not `MMOSAL_WAIT_FOREVER` **returns the result of its last
  evaluation, the only one that may be true; with timeout 0 there is no other; false comes only from
  an evaluation made when the capped timeout is over; and every deadline it parks with is the tick at
  which its elapsed test first succeeds.**
* `sleep_lasts`: **a sleep of up to 2^31 ms lasts as long as asked, or as the longest wait**,
  `MM_HALOW_SCHED_WAIT_MAX_MS`.
* `sleep_cut`: a sleep of 30 s is over after 10 s.
-/

namespace MmHalow.Sched

open MmHalow.Lib MmHalow.Lib.Clock MmHalow.Osal

/-! ## Runs of a wait -/

/-- A call of `mm_halow_sched_park`: when, by what wait, and with what. -/
structure Park where
  at_ : Nat
  wait : Wait
  timed : Bool
  wakeAt : UInt32
  deriving Repr, DecidableEq

/-- A wait in progress: its variables, the count of milliseconds, the evaluations of its condition
and its parks, last first, and what it has returned. -/
structure Waiting where
  w : Wait
  now : Nat
  evals : List (Nat × Bool)
  parks : List Park
  ret : Option Bool
  deriving Repr, DecidableEq

/-- What happens next: time passes, the wait makes a step of its own, reading
`mm_halow_sched_teardown` and whether no task is current, or it evaluates its condition. -/
inductive WaitEvent where
  | pass (ms : Nat)
  | step (teardown outside : Bool)
  | eval (result : Bool)
  deriving Repr, DecidableEq

/-- The effect of an event; `none` where it cannot happen. -/
def Waiting.next (cfg : Config) (s : Waiting) : WaitEvent → Option Waiting
  | .pass ms => some { s with now := s.now + ms }
  | .eval result =>
    if s.w.pc.evaluates ∧ s.ret = none then
      some { s with w := waitCond result s.w, evals := (s.now, result) :: s.evals }
    else none
  | .step teardown outside =>
    if s.ret = none then
      match waitStep cfg (tick s.now) teardown outside s.w with
      | (_, .eval) => none
      | (w, .park timed wakeAt) =>
        some { s with w := w, parks := ⟨s.now, s.w, timed, wakeAt⟩ :: s.parks }
      | (w, .ret satisfied) => some { s with w := w, ret := some satisfied }
      | (w, _) => some { s with w := w }
    else none

/-- A wait that is called with `timeoutMs` at `t`. -/
def Waiting.call (timeoutMs : UInt32) (t : Nat) : Waiting := ⟨waitCall timeoutMs, t, [], [], none⟩

/-- The steps of waits. -/
def Waiting.Step (cfg : Config) (s : Waiting) (e : WaitEvent) (t : Waiting) : Prop :=
  s.next cfg e = some t

/-! ## What holds where a wait stands -/

/-- `(uint32_t)(mm_halow_ticks_ms() - start) >= timeout_ms`, at `t`. -/
def Wait.over (w : Wait) (t : Nat) : Prop := w.timeoutMs ≤ tick t - w.start

/-- The timeout after the cap. -/
def capped (cfg : Config) (asked : UInt32) : UInt32 :=
  if asked > cfg.waitMaxMs then cfg.waitMaxMs else asked

/-- No evaluation has been true. -/
def AllFalse (evals : List (Nat × Bool)) : Prop := ∀ e ∈ evals, e.2 = false

/-- The wait has its timeout, and is not to last forever. -/
def Limited (cfg : Config) (asked : UInt32) (w : Wait) : Prop :=
  w.forever = false ∧ w.timeoutMs = capped cfg asked

/-- The wait began to count at a time from `t` to `now`. -/
def Started (t now : Nat) (w : Wait) : Prop := ∃ ts, w.start = tick ts ∧ t ≤ ts ∧ ts ≤ now

/-- The last evaluation decided, and it was false only when the time was over. -/
structure Decided (cfg : Config) (asked : UInt32) (t : Nat) (r : Bool) (evals : List (Nat × Bool)) :
    Prop where
  last : ∃ te, evals.head? = some (te, r) ∧ (r = false → t + (capped cfg asked).toNat ≤ te)
  others : AllFalse evals.tail
  once : asked = 0 → evals.tail = []

/-- **Where a wait stands**, called with `asked` at `t`. -/
def Stands (cfg : Config) (asked : UInt32) (t : Nat) (s : Waiting) : Prop :=
  match s.w.pc with
  | .cap => s.w.timeoutMs = asked ∧ s.evals = []
  | .start => Limited cfg asked s.w ∧ s.evals = []
  | .counted => Limited cfg asked s.w ∧ Started t s.now s.w ∧ s.evals = []
  | .cond =>
    Limited cfg asked s.w ∧ Started t s.now s.w ∧ AllFalse s.evals ∧ (asked = 0 → s.evals = [])
  | .zero =>
    Limited cfg asked s.w ∧ Started t s.now s.w ∧ AllFalse s.evals ∧
      (asked = 0 → s.evals.tail = []) ∧ ∃ te, s.evals.head? = some (te, false) ∧ t ≤ te
  | .teardown => False
  | .elapsed => Limited cfg asked s.w ∧ Started t s.now s.w ∧ AllFalse s.evals ∧ asked ≠ 0
  | .recheck =>
    AllFalse s.evals ∧ asked ≠ 0 ∧ t + (capped cfg asked).toNat ≤ s.now
  | .leave r => Decided cfg asked t r s.evals
  | .wake r => Decided cfg asked t r s.evals
  | .done => Decided cfg asked t true s.evals

/-- The deadline of a park is the tick at which the elapsed test of the wait first succeeds. -/
def Park.Punctual (p : Park) : Prop :=
  p.timed = true ∧ ∃ due, p.wakeAt = tick due ∧ p.at_ < due ∧ p.wait.over due ∧
    ∀ t, p.at_ ≤ t → t < due → ¬ p.wait.over t

/-- The invariant of a wait. -/
structure WaitInv (cfg : Config) (asked : UInt32) (t : Nat) (s : Waiting) : Prop where
  stands : Stands cfg asked t s
  called : t ≤ s.now
  parks : ∀ p ∈ s.parks, p.Punctual
  ret : ∀ r, s.ret = some r → Decided cfg asked t r s.evals

variable {cfg : Config} {asked : UInt32} {t : Nat} {s u : Waiting} {e : WaitEvent} {w : Wait}

theorem capped_zero : capped cfg 0 = 0 := if_neg (UInt32.not_lt.mpr UInt32.zero_le)

theorem Started.mono {now now' : Nat} (h : Started t now w) (hle : now ≤ now') : Started t now' w := by
  obtain ⟨ts, hs, ht, hn⟩ := h
  exact ⟨ts, hs, ht, Nat.le_trans hn hle⟩

/-- Where the elapsed test succeeds, the time is over. -/
theorem Started.over {now : Nat} (hl : Limited cfg asked w) (hs : Started t now w)
    (h : w.timeoutMs ≤ tick now - w.start) : t + (capped cfg asked).toNat ≤ now := by
  obtain ⟨ts, hstart, ht, hn⟩ := hs
  rw [hl.2, hstart, UInt32.le_iff_toNat_le, toNat_tick_sub hn] at h
  have := Nat.mod_le (now - ts) (2 ^ 32)
  omega

/-- **A park with a deadline is punctual.** -/
theorem punctual {now : Nat} (h : ¬ w.timeoutMs ≤ tick now - w.start) :
    Park.Punctual ⟨now, w, true, w.start + w.timeoutMs⟩ := by
  -- the timeout less what has elapsed of it
  have hlt : (tick now - w.start).toNat < w.timeoutMs.toNat := by
    rw [UInt32.le_iff_toNat_le] at h
    exact Nat.lt_of_not_le h
  have htick : ∀ n, tick (now + n) - w.start = tick now - w.start + UInt32.ofNat n := by
    intro n
    rw [tick_add]
    show tick now + UInt32.ofNat n - w.start = _
    rw [UInt32.sub_eq_add_neg, UInt32.sub_eq_add_neg, UInt32.add_assoc, UInt32.add_assoc,
      UInt32.add_comm (UInt32.ofNat n)]
  have hadd : ∀ n, n ≤ w.timeoutMs.toNat - (tick now - w.start).toNat →
      (tick (now + n) - w.start).toNat = (tick now - w.start).toNat + n := by
    intro n hn
    have hbound := w.timeoutMs.toNat_lt
    rw [htick, UInt32.toNat_add, UInt32.toNat_ofNat']
    rw [Nat.mod_eq_of_lt (a := n) (by omega), Nat.mod_eq_of_lt (by omega)]
  refine ⟨rfl, now + (w.timeoutMs.toNat - (tick now - w.start).toNat), ?_, ?_, ?_, ?_⟩
  · have hdue : tick (now + (w.timeoutMs.toNat - (tick now - w.start).toNat)) - w.start =
        w.timeoutMs := by
      apply UInt32.toNat.inj
      rw [hadd _ (Nat.le_refl _)]
      omega
    show w.start + w.timeoutMs = _
    rw [← hdue, UInt32.add_comm, UInt32.sub_add_cancel, hdue]
  · show now < _
    omega
  · show w.timeoutMs ≤ _
    rw [UInt32.le_iff_toNat_le, hadd _ (Nat.le_refl _)]
    omega
  · intro t ht hdue hover
    obtain ⟨n, rfl⟩ := Nat.exists_eq_add_of_le ht
    have hn : n < w.timeoutMs.toNat - (tick now - w.start).toNat := Nat.lt_of_add_lt_add_left hdue
    have hle : w.timeoutMs.toNat ≤ (tick (now + n) - w.start).toNat := UInt32.le_iff_toNat_le.mp hover
    rw [hadd n (Nat.le_of_lt hn)] at hle
    omega

/-- **One event keeps the invariant**, for a wait that is not to last forever. -/
theorem WaitInv.next (hasked : asked ≠ waitForever) (h : WaitInv cfg asked t s)
    (hs : s.next cfg e = some u) : WaitInv cfg asked t u := by
  obtain ⟨⟨timeoutMs, forever, start, counted, pc, asked'⟩, now, evals, parks, ret⟩ := s
  obtain ⟨hstands, hcalled, hparks, hret⟩ := h
  cases e with
  | pass ms =>
    obtain rfl := Option.some.inj hs
    refine ⟨?_, Nat.le_add_right_of_le hcalled, hparks, hret⟩
    cases pc with
    | counted => exact ⟨hstands.1, hstands.2.1.mono (Nat.le_add_right _ _), hstands.2.2⟩
    | cond => exact ⟨hstands.1, hstands.2.1.mono (Nat.le_add_right _ _), hstands.2.2⟩
    | zero => exact ⟨hstands.1, hstands.2.1.mono (Nat.le_add_right _ _), hstands.2.2⟩
    | elapsed => exact ⟨hstands.1, hstands.2.1.mono (Nat.le_add_right _ _), hstands.2.2⟩
    | recheck => exact ⟨hstands.1, hstands.2.1, Nat.le_add_right_of_le hstands.2.2⟩
    | _ => exact hstands
  | eval r =>
    obtain ⟨hguard, hu⟩ := Option.ite_none_right_eq_some.mp hs
    obtain rfl := Option.some.inj hu
    obtain ⟨heval, hnone⟩ := hguard
    have hret' : ∀ r', ret = some r' → Decided cfg asked t r' ((now, r) :: evals) := fun r' h =>
      nomatch hnone.symm.trans h
    cases pc with
    | cond =>
      obtain ⟨hl, hst, hall, hzero⟩ := hstands
      cases r with
      | true =>
        exact ⟨⟨⟨now, rfl, nofun⟩, hall, hzero⟩, hcalled, hparks, hret'⟩
      | false =>
        refine ⟨⟨hl, hst, List.forall_mem_cons.mpr ⟨rfl, hall⟩, hzero, now, rfl, hcalled⟩, hcalled,
          hparks, hret'⟩
    | recheck =>
      obtain ⟨hall, hne, hover⟩ := hstands
      exact ⟨⟨⟨now, rfl, fun _ => hover⟩, hall, fun h => absurd h hne⟩, hcalled, hparks, hret'⟩
    | _ => exact nomatch heval
  | step teardown outside =>
    obtain ⟨hnone, hu⟩ := Option.ite_none_right_eq_some.mp hs
    have hret' : ∀ r', ret = some r' → Decided cfg asked t r' evals := hret
    cases pc with
    | cap =>
      obtain ⟨hms, hevals⟩ := hstands
      obtain rfl := Option.some.inj hu
      obtain rfl : timeoutMs = asked := hms
      refine ⟨⟨⟨decide_eq_false hasked, ?_⟩, hevals⟩, hcalled, hparks, hret'⟩
      show (if _ then _ else _) = _
      simp [capped, hasked]
    | start =>
      obtain rfl := Option.some.inj hu
      have hst : Started t now ⟨timeoutMs, forever, tick now, counted, .counted, asked'⟩ :=
        ⟨now, rfl, hcalled, Nat.le_refl now⟩
      exact ⟨⟨hstands.1, hst, hstands.2⟩, hcalled, hparks, hret'⟩
    | counted =>
      obtain ⟨hl, hst, hevals⟩ := hstands
      obtain rfl : evals = [] := hevals
      cases outside with
      | true =>
        obtain rfl := Option.some.inj hu
        exact ⟨⟨hl, hst, nofun, fun _ => rfl⟩, hcalled, hparks, hret'⟩
      | false =>
        obtain rfl := Option.some.inj hu
        exact ⟨⟨hl, hst, nofun, fun _ => rfl⟩, hcalled, hparks, hret'⟩
    | zero =>
      obtain ⟨hl, hst, hall, honce, te, hlast, hte⟩ := hstands
      obtain rfl : forever = false := hl.1
      by_cases hzero : timeoutMs = 0
      · subst hzero
        obtain rfl := Option.some.inj hu
        have hcap : capped cfg asked = 0 := hl.2.symm
        refine ⟨⟨⟨te, hlast, fun _ => ?_⟩, fun e he => hall e (List.mem_of_mem_tail he), honce⟩, hcalled,
          hparks, hret'⟩
        rw [hcap]
        exact hte
      · simp only [waitStep, hzero, if_false] at hu
        obtain rfl := Option.some.inj hu
        refine ⟨⟨hl, hst, hall, fun h0 => hzero ?_⟩, hcalled, hparks, hret'⟩
        subst h0
        exact hl.2.trans capped_zero
    | elapsed =>
      obtain ⟨hl, hst, hall, hne⟩ := hstands
      by_cases hover : timeoutMs ≤ tick now - start
      · simp only [waitStep, if_pos hover] at hu
        obtain rfl := Option.some.inj hu
        exact ⟨⟨hall, hne, hst.over hl hover⟩, hcalled, hparks, hret'⟩
      · simp only [waitStep, if_neg hover] at hu
        obtain rfl := Option.some.inj hu
        exact ⟨⟨hl, hst, hall, fun h => absurd h hne⟩, hcalled,
          List.forall_mem_cons.mpr ⟨punctual hover, hparks⟩, hret'⟩
    | leave r =>
      cases counted with
      | true =>
        obtain rfl := Option.some.inj hu
        exact ⟨hstands, hcalled, hparks, hret'⟩
      | false =>
        obtain rfl := Option.some.inj hu
        exact ⟨hstands, hcalled, hparks, hret'⟩
    | wake r =>
      cases r with
      | true =>
        obtain rfl := Option.some.inj hu
        exact ⟨hstands, hcalled, hparks, hret'⟩
      | false =>
        obtain rfl := Option.some.inj hu
        exact ⟨hstands, hcalled, hparks, fun r' h => Option.some.inj h ▸ hstands⟩
    | done =>
      obtain rfl := Option.some.inj hu
      exact ⟨hstands, hcalled, hparks, fun r' h => Option.some.inj h ▸ hstands⟩
    | teardown => exact hstands.elim
    | cond => exact nomatch hu
    | recheck => exact nomatch hu

theorem WaitInv.call : WaitInv cfg asked t (.call asked t) :=
  ⟨⟨rfl, rfl⟩, Nat.le_refl t, fun _ h => absurd h List.not_mem_nil, fun _ h => nomatch h⟩

/-- The invariant holds in every run of a wait that is not to last forever. -/
theorem WaitInv.run {tr : List WaitEvent} (hasked : asked ≠ waitForever)
    (hr : Run (Waiting.Step cfg) (.call asked t) tr s) : WaitInv cfg asked t s :=
  hr.inv .call fun _ _ _ h hs => h.next hasked hs

/-- Only an evaluation is recorded as one. -/
theorem Waiting.evals_next (hs : s.next cfg e = some u) :
    u.evals = match e with
      | .eval r => (s.now, r) :: s.evals
      | _ => s.evals := by
  cases e with
  | pass ms =>
    obtain rfl := Option.some.inj hs
    rfl
  | eval r =>
    obtain ⟨-, hu⟩ := Option.ite_none_right_eq_some.mp hs
    obtain rfl := Option.some.inj hu
    rfl
  | step teardown outside =>
    obtain ⟨-, hu⟩ := Option.ite_none_right_eq_some.mp hs
    split at hu
    · exact nomatch hu
    all_goals
      obtain rfl := Option.some.inj hu
      rfl

/-! ## The result of a wait -/

theorem toNat_capped : (capped cfg asked).toNat = min asked.toNat cfg.waitMaxMs.toNat := by
  unfold capped
  split
  case isTrue h => exact (Nat.min_eq_right (Nat.le_of_lt (UInt32.lt_iff_toNat_lt.mp h))).symm
  case isFalse h =>
    exact (Nat.min_eq_left (UInt32.le_iff_toNat_le.mp (UInt32.not_lt.mp h))).symm

theorem AllFalse.tail {evals : List (Nat × Bool)} (h : AllFalse evals) : AllFalse evals.tail :=
  fun e he => h e (List.mem_of_mem_tail he)

/-- No evaluation follows one that is true. -/
theorem Stands.tail (h : Stands cfg asked t s) : AllFalse s.evals.tail := by
  have hnil : s.evals = [] → AllFalse s.evals.tail := fun hs => by
    rw [hs]
    exact nofun
  unfold Stands at h
  split at h
  · exact hnil h.2
  · exact hnil h.2
  · exact hnil h.2.2
  · exact h.2.2.1.tail
  · exact h.2.2.1.tail
  · exact h.elim
  · exact h.2.2.1.tail
  · exact h.1.tail
  · exact h.others
  · exact h.others
  · exact h.others

/-- **Result and timing of a wait**, for every condition and every schedule. -/
theorem wait_result (cfg : Config) (asked : UInt32) (hasked : asked ≠ waitForever) (t : Nat)
    (tr : List WaitEvent) (s : Waiting) (hr : Run (Waiting.Step cfg) (.call asked t) tr s) :
    (∀ e ∈ s.evals.tail, e.2 = false) ∧
      (∀ r, s.ret = some r → ∃ te, s.evals.head? = some (te, r) ∧
        (asked = 0 → s.evals.length = 1) ∧
        (r = false → t + min asked.toNat cfg.waitMaxMs.toNat ≤ te)) ∧
      ∀ p ∈ s.parks, p.timed = true ∧ ∃ due, p.wakeAt = tick due ∧ p.at_ < due ∧ p.wait.over due ∧
        ∀ t', p.at_ ≤ t' → t' < due → ¬ p.wait.over t' := by
  have h := WaitInv.run hasked hr
  refine ⟨h.stands.tail, fun r hret => ?_, h.parks⟩
  obtain ⟨⟨te, hlast, hover⟩, -, honce⟩ := h.ret r hret
  refine ⟨te, hlast, fun h0 => ?_, fun hr => toNat_capped ▸ hover hr⟩
  obtain ⟨rest, hevals⟩ := List.head?_eq_some_iff.mp hlast
  have hnil : rest = [] := by simpa [hevals] using honce h0
  rw [hevals, hnil]
  rfl

/-- A wait of 5 ms in task context that is not satisfied: it parks once, and is late when it comes
back. -/
def unsatisfied : List WaitEvent :=
  [.step false false, .step false false, .step false false, .eval false, .step false false, .pass 2,
    .step false false, .pass 4, .eval false, .step false false, .step false false, .eval false,
    .step false false, .step false false]

/-- The clock wraps during the wait. -/
theorem wait_result_unsatisfied : ∃ s, Run (Waiting.Step .defaults) (.call 5 (2 ^ 32 - 3)) unsatisfied s ∧
    s.ret = some false ∧ ∃ te, s.evals.head? = some (te, false) ∧ 2 ^ 32 - 3 + 5 ≤ te := by
  have hfold : (unsatisfied.foldlM (Waiting.next .defaults) (.call 5 (2 ^ 32 - 3))).any
      (fun s => s.ret == some false) = true := by decide
  obtain ⟨s, hr, hs⟩ := Run.ofFold_any (fun _ _ _ h => h) hfold
  have hret : s.ret = some false := eq_of_beq hs
  obtain ⟨te, hlast, -, hover⟩ :=
    (wait_result .defaults 5 (by decide) (2 ^ 32 - 3) unsatisfied s hr).2.1 false hret
  exact ⟨s, hr, hret, te, hlast, hover rfl⟩

/-! ## Giving up -/

/-- A false result now ends the wait. -/
def Wait.last (w : Wait) : Prop := w.pc = .recheck ∨ w.pc = .cond ∧ w.timeoutMs = 0

/-- `G` holds of the time, once the wait has given up. -/
def Waiting.GivenUp (G : Nat → Prop) (s : Waiting) : Prop :=
  (match s.w.pc with
    | .zero => s.w.timeoutMs = 0 → G s.now
    | .leave r => r = false → G s.now
    | .wake r => r = false → G s.now
    | _ => True) ∧ (s.ret = some false → G s.now)

theorem Waiting.GivenUp.mono {G G' : Nat → Prop} (h : s.GivenUp G) (hG : ∀ t, G t → G' t) :
    s.GivenUp G' := by
  refine ⟨?_, fun hret => hG _ (h.2 hret)⟩
  have hpc := h.1
  split at hpc
  · exact fun hzero => hG _ (hpc hzero)
  · exact fun hr => hG _ (hpc hr)
  · exact fun hr => hG _ (hpc hr)
  · trivial

/-- **A wait gives up after an evaluation that is its last.** -/
theorem Waiting.GivenUp.next {G : Nat → Prop} (hG : ∀ t u, t ≤ u → G t → G u) (h : s.GivenUp G)
    (hs : s.next cfg e = some u) (hlast : e = .eval false → s.w.last → G s.now) : u.GivenUp G := by
  obtain ⟨⟨timeoutMs, forever, start, counted, pc, asked'⟩, now, evals, parks, ret⟩ := s
  obtain ⟨hpc, hret⟩ := h
  cases e with
  | pass ms =>
    obtain rfl := Option.some.inj hs
    have hG' : G now → G (now + ms) := hG _ _ (Nat.le_add_right now ms)
    refine ⟨?_, fun h => hG' (hret h)⟩
    cases pc with
    | zero => exact fun h => hG' (hpc h)
    | leave r => exact fun h => hG' (hpc h)
    | wake r => exact fun h => hG' (hpc h)
    | _ => trivial
  | eval r =>
    obtain ⟨hguard, hu⟩ := Option.ite_none_right_eq_some.mp hs
    obtain rfl := Option.some.inj hu
    refine ⟨?_, hret⟩
    cases pc with
    | cond =>
      cases r with
      | true => exact nofun
      | false => exact fun h => hlast rfl (.inr ⟨rfl, h⟩)
    | recheck =>
      rintro rfl
      exact hlast rfl (.inl rfl)
    | _ => exact nomatch hguard.1
  | step teardown outside =>
    obtain ⟨-, hu⟩ := Option.ite_none_right_eq_some.mp hs
    cases pc with
    | zero =>
      by_cases hzero : timeoutMs = 0
      · simp only [waitStep, hzero, if_true] at hu
        obtain rfl := Option.some.inj hu
        exact ⟨fun _ => hpc hzero, hret⟩
      · simp only [waitStep, hzero, if_false] at hu
        obtain rfl := Option.some.inj hu
        refine ⟨?_, hret⟩
        cases forever <;> trivial
    | elapsed =>
      by_cases hover : timeoutMs ≤ tick now - start
      · simp only [waitStep, if_pos hover] at hu
        obtain rfl := Option.some.inj hu
        exact ⟨trivial, hret⟩
      · simp only [waitStep, if_neg hover] at hu
        obtain rfl := Option.some.inj hu
        exact ⟨trivial, hret⟩
    | teardown =>
      cases teardown <;>
        · obtain rfl := Option.some.inj hu
          exact ⟨trivial, hret⟩
    | leave r =>
      cases counted <;>
        · obtain rfl := Option.some.inj hu
          exact ⟨hpc, hret⟩
    | wake r =>
      cases r with
      | true =>
        obtain rfl := Option.some.inj hu
        exact ⟨trivial, hret⟩
      | false =>
        obtain rfl := Option.some.inj hu
        exact ⟨hpc, fun _ => hpc rfl⟩
    | counted =>
      cases outside <;>
        · obtain rfl := Option.some.inj hu
          exact ⟨trivial, hret⟩
    | done =>
      obtain rfl := Option.some.inj hu
      exact ⟨trivial, nofun⟩
    | cond => exact nomatch hu
    | recheck => exact nomatch hu
    | _ =>
      obtain rfl := Option.some.inj hu
      exact ⟨trivial, hret⟩

/-- `mm_halow_deadline_passed`. -/
def deadlinePassed (ticks deadline : UInt32) : Bool := reached ticks deadline

/-- `mmosal_task_sleep` at `t`: a yield for no time at all, or else its deadline and its wait. -/
def taskSleep (durationMs : UInt32) (t : Nat) : Option (UInt32 × Waiting) :=
  if durationMs = 0 then none else some (tick t + durationMs, .call durationMs t)

/-- What can happen to a sleep outside teardown: its condition is that the deadline has passed. -/
def sleeps (deadline : UInt32) (s : Waiting) : WaitEvent → Bool
  | .eval r => r == deadlinePassed (tick s.now) deadline
  | .step teardown _ => !teardown
  | .pass _ => true

/-- The steps of a sleep outside teardown. -/
def SleepStep (cfg : Config) (deadline : UInt32) (s : Waiting) (e : WaitEvent) (u : Waiting) : Prop :=
  (if sleeps deadline s e then s.next cfg e else none) = some u

/-- The evaluations of a sleep that was called at `t`. -/
def Slept (deadline : UInt32) (t : Nat) (s : Waiting) : Prop :=
  t ≤ s.now ∧ ∀ e ∈ s.evals, t ≤ e.1 ∧ e.1 ≤ s.now ∧
    (e.2 = true → deadlinePassed (tick e.1) deadline = true)

theorem Slept.next {deadline : UInt32} (h : Slept deadline t s) (hs : SleepStep cfg deadline s e u) :
    Slept deadline t u := by
  obtain ⟨hnow, hevals⟩ := h
  obtain ⟨hcond, hs⟩ := Option.ite_none_right_eq_some.mp hs
  cases e with
  | pass ms =>
    obtain rfl := Option.some.inj hs
    refine ⟨Nat.le_add_right_of_le hnow, fun e he => ?_⟩
    obtain ⟨h₁, h₂, h₃⟩ := hevals e he
    exact ⟨h₁, Nat.le_add_right_of_le h₂, h₃⟩
  | eval r =>
    obtain ⟨-, hu⟩ := Option.ite_none_right_eq_some.mp hs
    obtain rfl := Option.some.inj hu
    exact ⟨hnow, List.forall_mem_cons.mpr ⟨⟨hnow, Nat.le_refl _, fun h => (eq_of_beq hcond).symm.trans h⟩,
      hevals⟩⟩
  | step teardown outside =>
    obtain ⟨-, hu⟩ := Option.ite_none_right_eq_some.mp hs
    split at hu
    · exact nomatch hu
    all_goals
      obtain rfl := Option.some.inj hu
      exact ⟨hnow, hevals⟩

/-- Up to half the range, the deadline has not passed before its time. -/
theorem lapse_of_passed {duration te : Nat} (hd : duration ≤ 2 ^ 31) (hte : t ≤ te)
    (h : deadlinePassed (tick te) (tick (t + duration)) = true) : t + duration ≤ te := by
  by_contra hlt
  exact hlt ((reached_tick (by omega) (by omega)).mp h)

/-- **A sleep lasts as long as asked, or as the longest wait.** -/
theorem sleep_lasts (cfg : Config) (durationMs : UInt32) (hd : durationMs.toNat ≤ 2 ^ 31) (t : Nat)
    (deadline : UInt32) (s₀ : Waiting) (hcall : taskSleep durationMs t = some (deadline, s₀))
    (tr : List WaitEvent) (s : Waiting) (hr : Run (SleepStep cfg deadline) s₀ tr s)
    (hret : s.ret.isSome = true) : t + min durationMs.toNat cfg.waitMaxMs.toNat ≤ s.now := by
  obtain ⟨-, hcall⟩ := Option.ite_none_left_eq_some.mp hcall
  obtain ⟨rfl, rfl⟩ := Prod.mk.inj (Option.some.inj hcall)
  have hforever : durationMs ≠ waitForever := by
    rintro rfl
    exact absurd hd (by decide)
  have hinv := WaitInv.run hforever (hr.mono fun _ _ _ h => (Option.ite_none_right_eq_some.mp h).2)
  have hslept : Slept (tick t + durationMs) t s :=
    hr.inv ⟨Nat.le_refl t, fun _ h => absurd h List.not_mem_nil⟩ fun _ _ _ h hs => h.next hs
  obtain ⟨r, hr⟩ := Option.isSome_iff_exists.mp hret
  obtain ⟨⟨te, hlast, hover⟩, -, -⟩ := hinv.ret r hr
  obtain ⟨hte, hnow, hpassed⟩ := hslept.2 (te, r) (List.mem_of_mem_head? hlast)
  cases r with
  | false =>
    have h := hover rfl
    rw [toNat_capped] at h
    exact Nat.le_trans h hnow
  | true =>
    have hdur : tick t + durationMs = tick (t + durationMs.toNat) := by
      rw [tick_add]
      show _ = tick t + UInt32.ofNat durationMs.toNat
      rw [UInt32.ofNat_toNat]
    have h := hpassed rfl
    rw [hdur] at h
    have := lapse_of_passed hd hte h
    have := Nat.min_le_left durationMs.toNat cfg.waitMaxMs.toNat
    omega

/-- A sleep in a task that parks once, for `ms`, and what comes then. -/
def slept (ms : Nat) (rest : List WaitEvent) : List WaitEvent :=
  [.step false false, .step false false, .step false false, .eval false, .step false false,
    .step false false, .pass ms] ++ rest

/-- A sleep of 5 ms over which the clock wraps. -/
theorem sleep_lasts_wrap :
    ∃ s, Run (SleepStep .defaults 2) (.call 5 (2 ^ 32 - 3))
      (slept 5 [.eval true, .step false false, .step false false, .step false false]) s ∧
      2 ^ 32 - 3 + min 5 10000 ≤ s.now := by
  have hfold : ((slept 5 [.eval true, .step false false, .step false false, .step false false]).foldlM
      (fun s e => if sleeps 2 s e then Waiting.next .defaults s e else none)
      (.call 5 (2 ^ 32 - 3))).any (fun s => s.ret.isSome) = true := by decide
  obtain ⟨s, hr, hs⟩ := Run.ofFold_any (fun _ _ _ h => h) hfold
  exact ⟨s, hr, sleep_lasts .defaults 5 (by decide) (2 ^ 32 - 3) 2 _ rfl _ s hr hs⟩

/-- **A sleep of 30 s is over after 10 s.** -/
theorem sleep_cut :
    ¬ ∀ (cfg : Config) (durationMs : UInt32) (t : Nat) (deadline : UInt32) (s₀ : Waiting),
      taskSleep durationMs t = some (deadline, s₀) → ∀ (tr : List WaitEvent) (s : Waiting),
        Run (SleepStep cfg deadline) s₀ tr s → s.ret.isSome = true → t + durationMs.toNat ≤ s.now := by
  intro h
  have hfold : ((slept 10000 [.eval false, .step false false, .step false false, .eval false,
      .step false false, .step false false]).foldlM
      (fun s e => if sleeps 30000 s e then Waiting.next .defaults s e else none)
      (.call 30000 0)).any (fun s => s.ret.isSome && s.now == 10000) = true := by decide
  obtain ⟨s, hr, hs⟩ := Run.ofFold_any (fun _ _ _ h => h) hfold
  obtain ⟨hret, hnow⟩ := Bool.and_eq_true_iff.mp hs
  have hle := h .defaults 30000 0 30000 _ rfl _ s hr hret
  rw [eq_of_beq hnow] at hle
  exact absurd hle (by decide)

end MmHalow.Sched
