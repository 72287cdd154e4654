import Mathlib.Algebra.Group.Nat.Defs
import Mathlib.Data.List.Basic
import Mathlib.Data.Nat.Basic

/-!
# Time: a clock that wraps, and a limiter of rates

`tick t` is the low word of a count `t` of milliseconds. Deadlines are compared by the sign of
the difference of two ticks (`reached`), and a lapse of time is the difference itself.

* `reached_tick`: the comparison is that of the counts, as long as they are less than half the
  range apart.
* `toNat_tick_sub`: the difference is the lapse, modulo the range.

A limiter goes by fixed windows. Events come at times that do not go back. An event may open a window
where `W` has gone by since the last one was opened, and otherwise counts in the window that is open; the
first `L` of a window are admitted. An event may also count in the open window where it might have opened
another: a clock that wraps makes a limiter do so.

* `Bounded.event`, `Bounded.late`: **no interval of length `W` holds more than `2 * L` admitted
  events**, nor two windows opened in it.
* `Full.event`, `Full.turned_away`: where windows are opened as soon as they may be, an event is
  turned away only if `L` were admitted in the interval of length `W` that ends with it.
-/

namespace MmHalow.Lib.Clock

/-- The 32-bit tick of a clock that has counted `t` milliseconds. -/
def tick (t : Nat) : UInt32 := UInt32.ofNat t

/-- `(int32_t)(now - due) >= 0`. -/
def reached (now due : UInt32) : Bool := (now - due).toNat < 2 ^ 31

variable {a b : Nat}

@[simp] theorem tick_add (a b : Nat) : tick (a + b) = tick a + tick b := UInt32.ofNat_add a b

theorem toNat_tick (a : Nat) : (tick a).toNat = a % 2 ^ 32 := UInt32.toNat_ofNat'

/-- The difference of two ticks is the lapse between them, modulo the range. -/
theorem toNat_tick_sub (h : b ≤ a) : (tick a - tick b).toNat = (a - b) % 2 ^ 32 := by
  obtain ⟨n, rfl⟩ := Nat.exists_eq_add_of_le h
  rw [tick_add, UInt32.add_comm, UInt32.add_sub_cancel, toNat_tick, Nat.add_sub_cancel_left]

/-- **Deadlines compare as the counts do** while they are less than half the range apart. -/
theorem reached_tick (h1 : a < b + 2 ^ 31) (h2 : b ≤ a + 2 ^ 31) :
    reached (tick a) (tick b) = true ↔ b ≤ a := by
  unfold reached
  rw [decide_eq_true_eq, UInt32.toNat_sub, toNat_tick, toNat_tick]
  omega

end MmHalow.Lib.Clock

/-! ## A limiter by fixed windows -/

namespace MmHalow.Lib

/-- The open window and what has happened so far. -/
structure Limiter where
  start : Nat
  count : Nat
  /-- The time of the last event. -/
  last : Nat
  /-- When events were admitted, and when windows were opened. -/
  admitted : List Nat
  opened : List Nat

namespace Limiter

/-- No event has come, and a window is open from the start. -/
def init : Limiter := ⟨0, 0, 0, [], []⟩

/-- An event at the time `t`, which opens a window if `fresh`. -/
def event (L : Nat) (x : Limiter) (fresh : Bool) (t : Nat) : Limiter :=
  let start := if fresh then t else x.start
  let count := if fresh then 1 else x.count + 1
  { start := start
    count := count
    last := t
    admitted := if count ≤ L then x.admitted ++ [t] else x.admitted
    opened := if fresh then x.opened ++ [t] else x.opened }

theorem event_admitted (L : Nat) (x : Limiter) (fresh : Bool) (t : Nat) : (x.event L fresh t).admitted =
    if (x.event L fresh t).count ≤ L then x.admitted ++ [t] else x.admitted := rfl

theorem event_opened (L : Nat) (x : Limiter) (fresh : Bool) (t : Nat) :
    (x.event L fresh t).opened = if fresh then x.opened ++ [t] else x.opened := rfl

/-- The event does not go back, and opens a window only where one may be opened. -/
structure May (W : Nat) (x : Limiter) (fresh : Bool) (t : Nat) : Prop where
  last : x.last ≤ t
  opens : fresh = true → x.start + W ≤ t

/-- Besides, it opens one where it may. -/
structure Prompt (W : Nat) (x : Limiter) (fresh : Bool) (t : Nat) : Prop extends May W x fresh t where
  stays : fresh = false → t < x.start + W

/-- How many of the times lie in the interval of length `W` from `a`. -/
def within (W a : Nat) (l : List Nat) : Nat := l.countP fun t => a ≤ t ∧ t < a + W

variable {W L a t : Nat} {x : Limiter} {fresh : Bool} {l : List Nat}

theorem within_snoc : within W a (l ++ [t]) = within W a l + if a ≤ t ∧ t < a + W then 1 else 0 := by
  simp only [within, List.countP_append, List.countP_singleton, decide_eq_true_eq]

/-- Nothing has happened in an interval that lies ahead. -/
theorem within_ahead (h : ∀ t ∈ l, t < a) : within W a l = 0 := by
  refine List.countP_eq_zero.mpr fun t ht hin => ?_
  exact absurd (of_decide_eq_true hin).1 (Nat.not_le.mpr (h t ht))

/-! ## How much is admitted -/

/-- **The invariant** for the interval from `a`. -/
structure Bounded (W L a : Nat) (x : Limiter) : Prop where
  start : x.start ≤ x.last
  admitted : ∀ t ∈ x.admitted, t ≤ x.last
  opened : ∀ t ∈ x.opened, t ≤ x.last
  early : x.start < a → within W a x.admitted ≤ min x.count L ∧ within W a x.opened = 0
  inside : a ≤ x.start → x.start < a + W →
    within W a x.admitted ≤ L + min x.count L ∧ within W a x.opened ≤ 1
  late : within W a x.admitted ≤ 2 * L ∧ within W a x.opened ≤ 1

theorem Bounded.init : Bounded W L a init where
  start := Nat.le_refl 0
  admitted := List.forall_mem_nil _
  opened := List.forall_mem_nil _
  early _ := ⟨Nat.zero_le _, rfl⟩
  inside _ _ := ⟨Nat.zero_le _, Nat.zero_le 1⟩
  late := ⟨Nat.zero_le _, Nat.zero_le 1⟩

theorem mem_event_admitted (h : t ∈ (x.event L fresh a).admitted) : t ∈ x.admitted ∨ t = a := by
  simp only [event] at h
  split_ifs at h
  all_goals first
    | exact (List.mem_append.mp h).imp_right List.mem_singleton.mp
    | exact .inl h

theorem mem_event_opened (h : t ∈ (x.event L fresh a).opened) : t ∈ x.opened ∨ t = a := by
  simp only [event] at h
  split_ifs at h
  · exact (List.mem_append.mp h).imp_right List.mem_singleton.mp
  · exact .inl h

theorem within_event_admitted : within W a (x.event L fresh t).admitted = within W a x.admitted +
    if (x.event L fresh t).count ≤ L ∧ a ≤ t ∧ t < a + W then 1 else 0 := by
  simp only [event]
  split_ifs with _ hin
  all_goals first
    | rw [within_snoc]
      split_ifs <;> omega
    | omega

theorem within_event_opened : within W a (x.event L fresh t).opened = within W a x.opened +
    if fresh = true ∧ a ≤ t ∧ t < a + W then 1 else 0 := by
  cases fresh with
  | false => rfl
  | true =>
    rw [show (x.event L true t).opened = x.opened ++ [t] from rfl, within_snoc]
    simp only [true_and]

theorem Bounded.le_last (h : Bounded W L a x) (L : Nat) (fresh : Bool) (hlast : x.last ≤ t) :
    (∀ u ∈ (x.event L fresh t).admitted, u ≤ t) ∧ ∀ u ∈ (x.event L fresh t).opened, u ≤ t := by
  refine ⟨fun u hu => ?_, fun u hu => ?_⟩
  · obtain hu | rfl := mem_event_admitted hu
    · exact Nat.le_trans (h.admitted u hu) hlast
    · exact Nat.le_refl u
  · obtain hu | rfl := mem_event_opened hu
    · exact Nat.le_trans (h.opened u hu) hlast
    · exact Nat.le_refl u

/-- An event in the open window. -/
theorem Bounded.stays (h : Bounded W L a x) (hlast : x.last ≤ t) :
    Bounded W L a (x.event L false t) := by
  obtain ⟨hmem, hmem'⟩ := h.le_last L false hlast
  have hadm : within W a (x.event L false t).admitted = _ := within_event_admitted
  have hcount : (x.event L false t).count = x.count + 1 := rfl
  have hstart := h.start
  refine ⟨Nat.le_trans hstart hlast, hmem, hmem', fun hlt => ?_, fun hle hlt => ?_, ?_⟩
  · obtain ⟨he, ho⟩ := h.early hlt
    refine ⟨?_, ho⟩
    rw [hadm, hcount]
    split_ifs <;> omega
  · obtain ⟨hi, ho⟩ := h.inside hle hlt
    refine ⟨?_, ho⟩
    rw [hadm, hcount]
    split_ifs <;> omega
  · refine ⟨?_, h.late.2⟩
    rw [hadm, hcount]
    have hlate := h.late.1
    split_ifs with hin
    · obtain hlt | hle := Nat.lt_or_ge x.start a
      · have := (h.early hlt).1
        omega
      · have := (h.inside hle (by omega)).1
        omega
    · exact hlate

/-- An event that opens a window: the interval holds no more than the one before it. -/
theorem Bounded.opens (h : Bounded W L a x) (hlast : x.last ≤ t) (hopens : x.start + W ≤ t) :
    Bounded W L a (x.event L true t) := by
  obtain ⟨hmem, hmem'⟩ := h.le_last L true hlast
  have hadm : within W a (x.event L true t).admitted = _ := within_event_admitted
  have hopen : within W a (x.event L true t).opened = _ := within_event_opened
  have hcount : (x.event L true t).count = 1 := rfl
  rw [hcount] at hadm
  have hahead : t < a → within W a x.admitted = 0 ∧ within W a x.opened = 0 := fun hlt =>
    ⟨within_ahead fun u hu => Nat.lt_of_le_of_lt (Nat.le_trans (h.admitted u hu) hlast) hlt,
      within_ahead fun u hu => Nat.lt_of_le_of_lt (Nat.le_trans (h.opened u hu) hlast) hlt⟩
  have hinside : a ≤ t → t < a + W → within W a (x.event L true t).admitted ≤ L + min 1 L ∧
      within W a (x.event L true t).opened ≤ 1 := fun hle hlt => by
    obtain ⟨he, ho⟩ := h.early (by omega)
    rw [hadm, hopen]
    split_ifs <;> omega
  refine ⟨Nat.le_refl t, hmem, hmem', fun hlt => ?_, hinside, ?_⟩
  · obtain ⟨ha, ho⟩ := hahead hlt
    have hout : ¬ (a ≤ t ∧ t < a + W) := fun hin => absurd hin.1 (Nat.not_le.mpr hlt)
    rw [hadm, hopen, if_neg (fun hin => hout hin.2), if_neg (fun hin => hout hin.2), ha, ho]
    exact ⟨Nat.zero_le _, rfl⟩
  · by_cases hin : a ≤ t ∧ t < a + W
    · obtain ⟨ha, ho⟩ := hinside hin.1 hin.2
      exact ⟨by omega, ho⟩
    · rw [hadm, hopen, if_neg (fun h => hin h.2), if_neg (fun h => hin h.2)]
      exact h.late

/-- **An event keeps the bounds.** -/
theorem Bounded.event (h : Bounded W L a x) (hm : May W x fresh t) :
    Bounded W L a (x.event L fresh t) := by
  cases fresh with
  | false => exact h.stays hm.last
  | true => exact h.opens hm.last (hm.opens rfl)

/-! ## What is turned away -/

/-- **The invariant** of windows that are opened in time: what the open window has admitted was
admitted since it was opened. -/
structure Full (W L : Nat) (x : Limiter) : Prop where
  start : x.start ≤ x.last
  last : x.last < x.start + W
  admitted : ∀ t ∈ x.admitted, t ≤ x.last
  filled : min x.count L ≤ x.admitted.countP fun t => x.start ≤ t

theorem Full.init (hW : 0 < W) : Full W L init where
  start := Nat.le_refl 0
  last := (Nat.zero_add W).symm ▸ hW
  admitted := List.forall_mem_nil _
  filled := Nat.zero_le _

theorem countP_event (h : (x.event L fresh t).start ≤ t) :
    (x.event L fresh t).admitted.countP (fun u => (x.event L fresh t).start ≤ u) =
      x.admitted.countP (fun u => (x.event L fresh t).start ≤ u) +
        if (x.event L fresh t).count ≤ L then 1 else 0 := by
  by_cases hle : (x.event L fresh t).count ≤ L
  · rw [if_pos hle, show (x.event L fresh t).admitted = x.admitted ++ [t] from if_pos hle,
      List.countP_append, List.countP_singleton, if_pos (decide_eq_true h)]
  · rw [if_neg hle, show (x.event L fresh t).admitted = x.admitted from if_neg hle]
    rfl

theorem Full.event (h : Full W L x) (hW : 0 < W) (hp : Prompt W x fresh t) :
    Full W L (x.event L fresh t) := by
  have hmem : ∀ u ∈ (x.event L fresh t).admitted, u ≤ t := fun u hu => by
    obtain hu | rfl := mem_event_admitted hu
    · exact Nat.le_trans (h.admitted u hu) hp.last
    · exact Nat.le_refl u
  have hstart : (x.event L fresh t).start ≤ t := by
    cases fresh with
    | false => exact Nat.le_trans h.start hp.last
    | true => exact Nat.le_refl t
  refine ⟨hstart, ?_, hmem, ?_⟩
  · cases fresh with
    | false => exact hp.stays rfl
    | true => exact Nat.lt_add_of_pos_right hW
  · rw [countP_event hstart]
    cases fresh with
    | false =>
      have hfilled : min x.count L ≤ x.admitted.countP fun u => (x.event L false t).start ≤ u := h.filled
      have hcount : (x.event L false t).count = x.count + 1 := rfl
      rw [hcount]
      split_ifs <;> omega
    | true =>
      have hcount : (x.event L true t).count = 1 := rfl
      rw [hcount]
      split_ifs <;> omega

/-- **An event is turned away only where `L` were admitted shortly before it.** -/
theorem Full.turned_away (h : Full W L x) (hp : Prompt W x fresh t)
    (hout : L < (x.event L fresh t).count) : L ≤ x.admitted.countP fun u => t < u + W := by
  cases fresh with
  | true =>
    have hcount : L < 1 := hout
    omega
  | false =>
    have hcount : L < x.count + 1 := hout
    have hle : L ≤ x.admitted.countP fun u => x.start ≤ u := by
      have := h.filled
      omega
    refine Nat.le_trans hle (List.countP_mono_left fun u _ hu => decide_eq_true ?_)
    have hu : x.start ≤ u := of_decide_eq_true hu
    have := hp.stays rfl
    omega

end Limiter

end MmHalow.Lib
