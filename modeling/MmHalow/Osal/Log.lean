import MmHalow.Lib.Clock
import MmHalow.Lib.Preempt

/-!
# morselib's log (`mmosal_printf`)

morselib logs from inside its retry loops. `mmosal_printf` lets so many lines through in each window
of a second and counts the others, which it reports in front of the first line of the next window.
Its clock wraps: after a silence of about 49 days a line may count in the window before. Its three
statics are guarded by nothing, while thread context and PendSV both log: here a call makes one access
to them at a time (`Frame.next`) and PendSV may cut in between.

* `printf_settles`: a call that is not cut in on comes to `mmosalPrintf`.
* `Sim.next`: the log is a limiter by fixed windows (`Lib.Clock`) that may stay in one too long.
* `log_accounts`: **where no call cuts in on another every line is printed in order, reported as dropped
  or about to be reported**; of the lines logged in any second no more than twice the budget are
  printed, and one report.
* `log_prints`: with a line every 49 days, **a line is dropped only where the budget was used up in the
  second before it.**
* `printed_once`: however calls cut in on each other, a line that is printed was logged, and once for each
  time; `cut_in_loses`: but it may be lost without a word.
-/

namespace MmHalow.Osal.Printf

open MmHalow.Lib MmHalow.Lib.Clock

/-! ## The function -/

/-- The statics of `mmosal_printf`. -/
structure Statics where
  windowStart : UInt32
  lines : UInt32
  dropped : UInt32
  deriving DecidableEq, Repr

/-- What goes to the console. -/
inductive Printed where
  | dropped (n : UInt32)
  | line (text : String)
  deriving DecidableEq, Repr

def Printed.text : Printed → String
  | dropped n => "halow: " ++ toString n.toNat ++ " log lines dropped\n"
  | line text => text

/-- A line logged, `dt` milliseconds after the one before has read the clock. -/
structure Call where
  dt : Nat
  text : String
  ret : Int
  deriving DecidableEq, Repr

/-- The time of the last line, the statics, and what has been printed by the lines of which time and
returned. -/
structure Console where
  now : Nat
  log : Statics
  printed : List (Nat × Printed)
  returned : List Int
  deriving DecidableEq, Repr

/-- Where a call stands: which access comes next, and what `++lines` and `dropped++` have loaded. -/
inductive Pc where
  /-- `now - window_start >= 1000` -/
  | window
  /-- `if (dropped)` -/
  | anyDropped
  | report
  | setStart
  | setLines
  | setDropped
  | loadLines
  | storeLines (n : UInt32)
  | loadDropped
  | storeDropped (n : UInt32)
  | vprintf
  deriving DecidableEq, Repr

/-- A call of `mmosal_printf` that has read the clock. -/
structure Frame where
  call : Call
  time : Nat
  pc : Pc
  deriving DecidableEq, Repr

/-- Its variable `now`. -/
def Frame.now (f : Frame) : UInt32 := tick f.time

def Frame.goto (f : Frame) (pc : Pc) : Option Frame := some { f with pc := pc }

def Console.print (s : Console) (time : Nat) (p : Printed) : Console :=
  { s with printed := s.printed ++ [(time, p)] }

def Console.ret (s : Console) (ret : Int) : Console := { s with returned := s.returned ++ [ret] }

/-- **`mmosal_printf`, one access at a time.** `budget` is `MM_HALOW_LOG_LINES_PER_S`. -/
def Frame.next (budget : UInt32) (s : Console) (f : Frame) : Console × Option Frame :=
  match f.pc with
  | .window => (s, f.goto (if 1000 ≤ f.now - s.log.windowStart then .anyDropped else .loadLines))
  | .anyDropped => (s, f.goto (if s.log.dropped ≠ 0 then .report else .setStart))
  | .report => (s.print f.time (.dropped s.log.dropped), f.goto .setStart)
  | .setStart => ({ s with log := { s.log with windowStart := f.now } }, f.goto .setLines)
  | .setLines => ({ s with log := { s.log with lines := 0 } }, f.goto .setDropped)
  | .setDropped => ({ s with log := { s.log with dropped := 0 } }, f.goto .loadLines)
  | .loadLines => (s, f.goto (.storeLines s.log.lines))
  | .storeLines n => ({ s with log := { s.log with lines := n + 1 } },
    f.goto (if n + 1 > budget then .loadDropped else .vprintf))
  | .loadDropped => (s, f.goto (.storeDropped s.log.dropped))
  | .storeDropped n => (({ s with log := { s.log with dropped := n + 1 } } : Console).ret 0, none)
  | .vprintf => ((s.print f.time (.line f.call.text)).ret f.call.ret, none)

/-- The calls: one begins by reading the clock. -/
def printf (budget : UInt32) : Prog Console Frame Call Unit where
  start _ s c := some ({ s with now := s.now + c.dt }, ⟨c, s.now + c.dt, .window⟩)
  next _ s f _ := f.next budget s

/-! ## What a call comes to -/

/-- The window at `now`, and what is reported where it is a new one. -/
def Statics.window (now : UInt32) (log : Statics) : Statics × List Printed :=
  if 1000 ≤ now - log.windowStart then
    (⟨now, 0, 0⟩, if log.dropped ≠ 0 then [.dropped log.dropped] else [])
  else (log, [])

/-- The line in its window: what is printed, and what `mmosal_printf` returns. -/
def Statics.count (budget : UInt32) (text : String) (ret : Int) (log : Statics) :
    Statics × List Printed × Int :=
  if log.lines + 1 > budget then ({ log with lines := log.lines + 1, dropped := log.dropped + 1 }, [], 0)
  else ({ log with lines := log.lines + 1 }, [.line text], ret)

/-- **`mmosal_printf` at once**, of a line whose `MM_HALOW_VPRINTF` returns `ret`: what it prints and
returns. -/
def mmosalPrintf (budget now : UInt32) (text : String) (ret : Int) (log : Statics) :
    Statics × List Printed × Int :=
  let w := log.window now
  let r := w.1.count budget text ret
  (r.1, w.2 ++ r.2.1, r.2.2)

/-- The same from the statics `log` on, when `shown` has been reported. -/
def Frame.counts (budget : UInt32) (f : Frame) (shown : List Printed) (log : Statics) :
    Statics × List Printed × Int :=
  let r := log.count budget f.call.text f.call.ret
  (r.1, shown ++ r.2.1, r.2.2)

/-- What is left of the call where it stands. -/
def Frame.rest (budget : UInt32) (f : Frame) (log : Statics) : Statics × List Printed × Int :=
  match f.pc with
  | .window => mmosalPrintf budget f.now f.call.text f.call.ret log
  | .anyDropped => f.counts budget (if log.dropped ≠ 0 then [.dropped log.dropped] else []) ⟨f.now, 0, 0⟩
  | .report => f.counts budget [.dropped log.dropped] ⟨f.now, 0, 0⟩
  | .setStart => f.counts budget [] ⟨f.now, 0, 0⟩
  | .setLines => f.counts budget [] ⟨log.windowStart, 0, 0⟩
  | .setDropped => f.counts budget [] { log with dropped := 0 }
  | .loadLines => f.counts budget [] log
  | .storeLines n => f.counts budget [] { log with lines := n }
  | .loadDropped => ({ log with dropped := log.dropped + 1 }, [], 0)
  | .storeDropped n => ({ log with dropped := n + 1 }, [], 0)
  | .vprintf => (log, [.line f.call.text], f.call.ret)

/-- What a call leaves behind. -/
def Console.leave (s : Console) (time : Nat) (r : Statics × List Printed × Int) : Console :=
  { s with log := r.1, printed := s.printed ++ r.2.1.map (time, ·), returned := s.returned ++ [r.2.2] }

/-- The console once the call has returned. -/
def settle (budget : UInt32) (s : Console) (f : Frame) : Console := s.leave f.time (f.rest budget s.log)

/-- A whole call at once. -/
def Console.next (budget : UInt32) (s : Console) (c : Call) : Console :=
  ({ s with now := s.now + c.dt } : Console).leave (s.now + c.dt)
    (mmosalPrintf budget (tick (s.now + c.dt)) c.text c.ret s.log)

/-- How many accesses are left at most. -/
def Frame.left (f : Frame) : Nat :=
  match f.pc with
  | .window => 9
  | .anyDropped => 8
  | .report => 7
  | .setStart => 6
  | .setLines => 5
  | .setDropped => 4
  | .loadLines => 3
  | .storeLines _ => 2
  | .loadDropped => 1
  | .storeDropped _ | .vprintf => 0

/-- No window is so crowded that its count wraps. -/
def Moderate (s : Console) : Prop := s.log.lines.toNat + 1 < 2 ^ 32

/-- The clock does not wrap unnoticed between two calls. -/
def Frequent (c : Call) : Prop := c.dt + 1000 ≤ 2 ^ 32

def Console.boot : Console := ⟨0, ⟨0, 0, 0⟩, [], []⟩

variable {budget : UInt32} {s t : Console} {c : Call} {f : Frame}

theorem leave_print {time : Nat} {p : Printed} {r : Statics × List Printed × Int} :
    (s.print time p).leave time r = s.leave time (r.1, p :: r.2.1, r.2.2) := by
  unfold Console.print Console.leave
  simp only [List.map_cons, List.append_assoc, List.singleton_append]

/-- An access leaves what the call comes to. -/
theorem next_settles {g : Frame} (h : f.next budget s = (t, some g)) : settle budget t g = settle budget s f := by
  obtain ⟨c, time, pc⟩ := f
  cases pc with
  | window =>
    obtain ⟨rfl, hg⟩ := Prod.mk.inj h
    obtain rfl := Option.some.inj hg
    by_cases hw : 1000 ≤ Frame.now ⟨c, time, .window⟩ - s.log.windowStart
    · simp only [settle, Frame.rest, mmosalPrintf, Statics.window, if_pos hw]
      rfl
    · simp only [settle, Frame.rest, mmosalPrintf, Statics.window, if_neg hw]
      rfl
  | anyDropped =>
    obtain ⟨rfl, hg⟩ := Prod.mk.inj h
    obtain rfl := Option.some.inj hg
    by_cases hd : s.log.dropped ≠ 0
    · simp only [settle, Frame.rest, if_pos hd]
      rfl
    · simp only [settle, Frame.rest, if_neg hd]
      rfl
  | report =>
    obtain ⟨rfl, hg⟩ := Prod.mk.inj h
    obtain rfl := Option.some.inj hg
    exact leave_print
  | storeLines n =>
    obtain ⟨rfl, hg⟩ := Prod.mk.inj h
    obtain rfl := Option.some.inj hg
    by_cases hb : n + 1 > budget
    · simp only [settle, Frame.rest, Frame.counts, Statics.count, if_pos hb]
      rfl
    · simp only [settle, Frame.rest, Frame.counts, Statics.count, if_neg hb]
      rfl
  | setStart | setLines | setDropped | loadLines | loadDropped =>
    obtain ⟨rfl, hg⟩ := Prod.mk.inj h
    obtain rfl := Option.some.inj hg
    rfl
  | storeDropped | vprintf => exact nomatch (Prod.mk.inj h).2

/-- **A call that is not cut in on comes to `mmosalPrintf`.** -/
theorem printf_settles (budget : UInt32) : (printf budget).Settles (settle budget) where
  goes := next_settles
  returns {_ s f _ t} h := by
    obtain ⟨c, time, pc⟩ := f
    cases pc with
    | storeDropped n =>
      obtain rfl := (Prod.mk.inj h).1
      exact congrArg (fun l => Console.mk s.now _ l _) (List.append_nil _).symm
    | vprintf =>
      obtain rfl := (Prod.mk.inj h).1
      rfl
    | _ => exact nomatch (Prod.mk.inj h).2

theorem left_next {g : Frame} (h : f.next budget s = (t, some g)) : g.left < f.left := by
  obtain ⟨c, time, pc⟩ := f
  cases pc with
  | storeDropped | vprintf => exact nomatch (Prod.mk.inj h).2
  | window | anyDropped | storeLines =>
    obtain rfl := Option.some.inj (Prod.mk.inj h).2
    dsimp only
    split_ifs <;> simp [Frame.left]
  | _ =>
    obtain rfl := Option.some.inj (Prod.mk.inj h).2
    exact Nat.lt_succ_self _

/-! ## What has been printed -/

/-- When lines were printed, and when reports. -/
def Printed.isLine : Printed → Bool
  | line _ => true
  | dropped _ => false

/-- What a report says. -/
def Printed.reported : Printed → Nat
  | dropped n => n.toNat
  | line _ => 0

/-- The text of a line. -/
def Printed.lineText : Printed → Option String
  | line text => some text
  | dropped _ => none

def lineTimes (printed : List (Nat × Printed)) : List Nat := (printed.filter (·.2.isLine)).map Prod.fst

def reportTimes (printed : List (Nat × Printed)) : List Nat :=
  (printed.filter (!·.2.isLine)).map Prod.fst

def reported (printed : List (Nat × Printed)) : Nat := printed.foldr (fun p n => p.2.reported + n) 0

def lineTexts (printed : List (Nat × Printed)) : List String := printed.filterMap (·.2.lineText)

theorem lineTimes_append (l l' : List (Nat × Printed)) :
    lineTimes (l ++ l') = lineTimes l ++ lineTimes l' := by
  simp only [lineTimes, List.filter_append, List.map_append]

theorem reportTimes_append (l l' : List (Nat × Printed)) :
    reportTimes (l ++ l') = reportTimes l ++ reportTimes l' := by
  simp only [reportTimes, List.filter_append, List.map_append]

theorem reported_append (l l' : List (Nat × Printed)) :
    reported (l ++ l') = reported l + reported l' := by
  induction l with
  | nil => exact (Nat.zero_add _).symm
  | cons p l ih =>
    refine (congrArg (p.2.reported + ·) ih).trans ?_
    exact (Nat.add_assoc _ _ _).symm

theorem lineTexts_append (l l' : List (Nat × Printed)) :
    lineTexts (l ++ l') = lineTexts l ++ lineTexts l' := List.filterMap_append

/-! ## A limiter by windows -/

/-- The log is the limiter `x`. -/
structure Sim (s : Console) (x : Limiter) : Prop where
  now : s.now = x.last
  start_le : x.start ≤ x.last
  start : s.log.windowStart = tick x.start
  count : s.log.lines.toNat = x.count
  lines : lineTimes s.printed = x.admitted
  reports : (reportTimes s.printed).Sublist x.opened

/-- The call opens a window. -/
def fresh (s : Console) (c : Call) : Bool := 1000 ≤ tick (s.now + c.dt) - s.log.windowStart

variable {x : Limiter}

/-- How long ago the window was opened, as the ticks say. -/
theorem Sim.lapse (h : Sim s x) : (tick (s.now + c.dt) - s.log.windowStart).toNat =
    (s.now + c.dt - x.start) % 2 ^ 32 := by
  rw [h.start]
  refine toNat_tick_sub ?_
  rw [h.now]
  exact Nat.le_trans h.start_le (Nat.le_add_right _ _)

theorem Sim.may (h : Sim s x) : x.May 1000 (fresh s c) (s.now + c.dt) where
  last := h.now ▸ Nat.le_add_right _ _
  opens hf := by
    have hle : 1000 ≤ (tick (s.now + c.dt) - s.log.windowStart).toNat :=
      UInt32.le_iff_toNat_le.mp (of_decide_eq_true hf)
    rw [h.lapse] at hle
    have := Nat.mod_le (s.now + c.dt - x.start) (2 ^ 32)
    omega

/-- With frequent calls a window is opened as soon as it may be. -/
theorem Sim.prompt (h : Sim s x) (hlast : x.last < x.start + 1000) (hc : Frequent c) :
    x.Prompt 1000 (fresh s c) (s.now + c.dt) where
  toMay := h.may
  stays hf := by
    have hlt : (tick (s.now + c.dt) - s.log.windowStart).toNat < 1000 :=
      UInt32.lt_iff_toNat_lt.mp (UInt32.not_le.mp (of_decide_eq_false hf))
    have hnow := h.now
    have hdt : c.dt + 1000 ≤ 2 ^ 32 := hc
    rw [h.lapse, Nat.mod_eq_of_lt (by omega)] at hlt
    omega

/-- The window that the line comes in. -/
structure Windowed (x : Limiter) (fresh : Bool) (now : Nat) (w : Statics × List Printed) : Prop where
  start : w.1.windowStart = tick (if fresh then now else x.start)
  count : w.1.lines.toNat = if fresh then 0 else x.count
  quiet : ∀ r ∈ w.2, r.isLine = false
  reports : w.2.length ≤ if fresh then 1 else 0

theorem Sim.windowed (h : Sim s x) :
    Windowed x (fresh s c) (s.now + c.dt) (s.log.window (tick (s.now + c.dt))) := by
  unfold Statics.window
  by_cases hf : 1000 ≤ tick (s.now + c.dt) - s.log.windowStart
  · have hfresh : fresh s c = true := decide_eq_true hf
    rw [if_pos hf, hfresh]
    by_cases hd : s.log.dropped ≠ 0
    · rw [if_pos hd]
      exact ⟨rfl, rfl, fun r hr => List.mem_singleton.mp hr ▸ rfl, Nat.le_refl 1⟩
    · rw [if_neg hd]
      exact ⟨rfl, rfl, fun r hr => absurd hr List.not_mem_nil, Nat.zero_le 1⟩
  · have hfresh : fresh s c = false := decide_eq_false hf
    rw [if_neg hf, hfresh]
    exact ⟨h.start, h.count, fun r hr => absurd hr List.not_mem_nil, Nat.le_refl 0⟩

theorem lineTimes_quiet {l : List Printed} {now : Nat} (h : ∀ r ∈ l, r.isLine = false) :
    lineTimes (l.map (now, ·)) = [] := by
  simp only [lineTimes, List.map_eq_nil_iff, List.filter_eq_nil_iff, List.mem_map]
  rintro p ⟨r, hr, rfl⟩
  simp [h r hr]

theorem reportTimes_quiet {l : List Printed} {now : Nat} (h : ∀ r ∈ l, r.isLine = false) :
    reportTimes (l.map (now, ·)) = List.replicate l.length now := by
  induction l with
  | nil => rfl
  | cons r l ih =>
    obtain ⟨hr, hl⟩ := List.forall_mem_cons.mp h
    have := ih hl
    simp only [reportTimes, List.map_cons, List.length_cons, List.replicate_succ] at this ⊢
    rw [List.filter_cons_of_pos (by simp [hr]), List.map_cons, this]

theorem toNat_lines_succ {w : Statics} (hw : w.lines.toNat + 1 < 2 ^ 32) :
    (w.lines + 1).toNat = w.lines.toNat + 1 := by
  rw [UInt32.toNat_add]
  exact Nat.mod_eq_of_lt hw

/-- The budget is compared with the count that the line makes. -/
theorem over_budget_iff {w : Statics} (hw : w.lines.toNat + 1 < 2 ^ 32) :
    w.lines + 1 > budget ↔ ¬ w.lines.toNat + 1 ≤ budget.toNat := by
  rw [gt_iff_lt, UInt32.lt_iff_toNat_lt, toNat_lines_succ hw, Nat.not_le]

/-- What the line itself prints. -/
theorem count_prints {w : Statics} (budget : UInt32) (text : String) (ret : Int)
    (hw : w.lines.toNat + 1 < 2 ^ 32) : (w.count budget text ret).2.1 =
      if w.lines.toNat + 1 ≤ budget.toNat then [.line text] else [] := by
  unfold Statics.count
  by_cases hb : w.lines + 1 > budget
  · rw [if_pos hb, if_neg ((over_budget_iff hw).mp hb)]
  · rw [if_neg hb, if_pos (Decidable.not_not.mp (mt (over_budget_iff hw).mpr hb))]

/-- It counts, and no window is opened. -/
theorem count_counts {w : Statics} (budget : UInt32) (text : String) (ret : Int)
    (hw : w.lines.toNat + 1 < 2 ^ 32) :
    (w.count budget text ret).1.windowStart = w.windowStart ∧
      (w.count budget text ret).1.lines.toNat = w.lines.toNat + 1 := by
  unfold Statics.count
  split_ifs
  · exact ⟨rfl, toNat_lines_succ hw⟩
  · exact ⟨rfl, toNat_lines_succ hw⟩

/-- What a call prints: a report where a window is opened, and its line. -/
theorem next_printed : (s.next budget c).printed = s.printed ++
    ((s.log.window (tick (s.now + c.dt))).2.map (s.now + c.dt, ·) ++
      ((s.log.window (tick (s.now + c.dt))).1.count budget c.text c.ret).2.1.map (s.now + c.dt, ·)) :=
  congrArg (s.printed ++ ·) (List.map_append ..)

/-- **A call is an event of the limiter.** -/
theorem Sim.next (h : Sim s x) (hm : Moderate s) :
    Sim (s.next budget c) (x.event budget.toNat (fresh s c) (s.now + c.dt)) := by
  have hw := h.windowed (c := c)
  have hmay := h.may (c := c)
  have hmod : s.log.lines.toNat + 1 < 2 ^ 32 := hm
  have hcount : x.count + 1 < 2 ^ 32 := h.count ▸ hmod
  have hevent : (s.log.window (tick (s.now + c.dt))).1.lines.toNat + 1 =
      (x.event budget.toNat (fresh s c) (s.now + c.dt)).count := by
    rw [hw.count]
    show _ = if fresh s c then 1 else x.count + 1
    split_ifs <;> rfl
  have hlt : (s.log.window (tick (s.now + c.dt))).1.lines.toNat + 1 < 2 ^ 32 := by
    rw [hw.count]
    split_ifs <;> omega
  obtain ⟨hstart, hlines⟩ := count_counts budget c.text c.ret hlt
  have hprints := count_prints budget c.text c.ret hlt
  rw [hevent] at hprints
  refine ⟨rfl, ?_, hstart.trans hw.start, hlines.trans hevent, ?_, ?_⟩
  · show (if fresh s c then s.now + c.dt else x.start) ≤ s.now + c.dt
    split_ifs
    · exact Nat.le_refl _
    · exact Nat.le_trans h.start_le hmay.last
  · rw [next_printed, lineTimes_append, lineTimes_append, lineTimes_quiet hw.quiet, List.nil_append,
      h.lines, hprints, Limiter.event_admitted]
    split_ifs
    · rfl
    · exact List.append_nil _
  · have hquiet : reportTimes (((s.log.window (tick (s.now + c.dt))).1.count budget c.text
        c.ret).2.1.map (s.now + c.dt, ·)) = [] := by
      rw [hprints]
      split_ifs <;> rfl
    rw [next_printed, reportTimes_append, reportTimes_append, hquiet, List.append_nil,
      reportTimes_quiet hw.quiet, Limiter.event_opened]
    have hle := hw.reports
    split_ifs at hle ⊢
    · refine h.reports.append ?_
      exact (List.replicate_sublist_replicate _).mpr hle
    · rw [Nat.le_zero.mp hle, List.replicate_zero, List.append_nil]
      exact h.reports

theorem Sim.boot : Sim .boot .init where
  now := rfl
  start_le := Nat.le_refl 0
  start := rfl
  count := rfl
  lines := rfl
  reports := List.Sublist.refl _

/-! ## What becomes of the lines -/

/-- What has been printed, what has been reported and what is to be reported make up `n` lines, and
the budget of the window is used up where there is something to be reported. -/
structure Accounted (budget : UInt32) (n : Nat) (s : Console) : Prop where
  dropped : s.log.dropped.toNat = s.log.lines.toNat - budget.toNat
  total : (lineTexts s.printed).length + reported s.printed + s.log.dropped.toNat = n

/-- What a new window reports is what was to be reported. -/
theorem window_accounts {log : Statics} (h : log.dropped.toNat = log.lines.toNat - budget.toNat)
    (tick : UInt32) (now : Nat) :
    let w := log.window tick
    w.1.dropped.toNat = w.1.lines.toNat - budget.toNat ∧ lineTexts (w.2.map (now, ·)) = [] ∧
      reported (w.2.map (now, ·)) + w.1.dropped.toNat = log.dropped.toNat := by
  unfold Statics.window
  split_ifs with hf hd
  · exact ⟨(Nat.zero_sub _).symm, rfl, rfl⟩
  · refine ⟨(Nat.zero_sub _).symm, rfl, ?_⟩
    rw [Decidable.not_not.mp hd]
    rfl
  · exact ⟨h, rfl, Nat.zero_add _⟩

/-- A line is printed or to be reported. -/
theorem count_accounts {w : Statics} (h : w.dropped.toNat = w.lines.toNat - budget.toNat)
    (hw : w.lines.toNat + 1 < 2 ^ 32) (text : String) (ret : Int) (now : Nat) :
    let r := w.count budget text ret
    r.1.dropped.toNat = r.1.lines.toNat - budget.toNat ∧ reported (r.2.1.map (now, ·)) = 0 ∧
      (lineTexts (r.2.1.map (now, ·))).length + r.1.dropped.toNat = w.dropped.toNat + 1 := by
  have hlines := toNat_lines_succ hw
  unfold Statics.count
  by_cases hb : w.lines + 1 > budget
  · have hlt := (over_budget_iff hw).mp hb
    have hdropped : (w.dropped + 1).toNat = w.dropped.toNat + 1 := by
      rw [UInt32.toNat_add]
      exact Nat.mod_eq_of_lt (show w.dropped.toNat + 1 < _ by omega)
    rw [if_pos hb]
    refine ⟨?_, rfl, ?_⟩
    · show (w.dropped + 1).toNat = (w.lines + 1).toNat - budget.toNat
      omega
    · show 0 + (w.dropped + 1).toNat = _
      omega
  · have hle := mt (over_budget_iff hw).mpr hb
    rw [if_neg hb]
    refine ⟨?_, rfl, ?_⟩
    · show w.dropped.toNat = (w.lines + 1).toNat - budget.toNat
      omega
    · show 1 + w.dropped.toNat = _
      omega

theorem window_lines {log : Statics} (h : log.lines.toNat + 1 < 2 ^ 32) (tick : UInt32) :
    (log.window tick).1.lines.toNat + 1 < 2 ^ 32 := by
  unfold Statics.window
  by_cases hf : 1000 ≤ tick - log.windowStart
  · rw [if_pos hf]
    show (0 : UInt32).toNat + 1 < 2 ^ 32
    decide
  · rw [if_neg hf]
    exact h

/-- **A call accounts for its line.** -/
theorem Accounted.next {n : Nat} (h : Accounted budget n s) (hm : Moderate s) :
    Accounted budget (n + 1) (s.next budget c) := by
  obtain ⟨hwindow, htexts, hreported⟩ := window_accounts h.dropped (tick (s.now + c.dt)) (s.now + c.dt)
  obtain ⟨hcount, hnone, hline⟩ := count_accounts hwindow (window_lines hm _) c.text c.ret (s.now + c.dt)
  refine ⟨hcount, ?_⟩
  have hdropped : (s.next budget c).log.dropped =
      ((s.log.window (tick (s.now + c.dt))).1.count budget c.text c.ret).1.dropped := rfl
  have htotal := h.total
  rw [next_printed, hdropped, lineTexts_append, lineTexts_append, reported_append, reported_append,
    htexts, hnone, List.nil_append, List.length_append]
  omega

theorem Accounted.boot : Accounted budget 0 .boot where
  dropped := (Nat.zero_sub _).symm
  total := rfl

/-- A call adds its own line or none. -/
theorem lineTexts_next (hm : Moderate s) : lineTexts (s.next budget c).printed = lineTexts s.printed ++
    if (s.log.window (tick (s.now + c.dt))).1.lines.toNat + 1 ≤ budget.toNat then [c.text] else [] := by
  have hprints := count_prints budget c.text c.ret (window_lines hm (tick (s.now + c.dt)))
  have hquiet : lineTexts ((s.log.window (tick (s.now + c.dt))).2.map (s.now + c.dt, ·)) = [] := by
    unfold Statics.window
    split_ifs <;> rfl
  rw [next_printed, lineTexts_append, lineTexts_append, hquiet, hprints, List.nil_append]
  split_ifs <;> rfl

/-! ## The log over whole runs -/

/-- Nobody has logged anything. -/
def boot : Two Console Frame := ⟨.boot, none, none⟩

/-- **Calls of either context, none of which cuts in on another**, in windows that are not too crowded. -/
def Logs (budget : UInt32) (s : Two Console Frame) (e : TwoEvent Call Unit) (t : Two Console Frame) : Prop :=
  (printf budget).Step s e t ∧ s.Alone (fun s _ => Moderate s) e

/-- The lines logged, by whomever. -/
def logged (tr : List (TwoEvent Call Unit)) : List String := (tr.filterMap TwoEvent.made).map (·.2.text)

theorem logged_snoc {tr : List (TwoEvent Call Unit)} {e : TwoEvent Call Unit} :
    logged (tr ++ [e]) = logged tr ++ (e.made.toList.map (·.2.text)) := by
  unfold logged
  rw [List.filterMap_append, List.map_append]
  cases e <;> rfl

variable {x y : Two Console Frame} {e : TwoEvent Call Unit} {tr : List (TwoEvent Call Unit)}
  {C : Console → Call → Prop} {k : Ctx × Call}

theorem next_of_atOnce (h : (printf budget).AtOnce (settle budget) C s k t) :
    C s k.2 ∧ t = s.next budget k.2 := by
  obtain ⟨hC, s', f, hst, rfl⟩ := h
  obtain ⟨rfl, rfl⟩ := Prod.mk.inj (Option.some.inj hst)
  exact ⟨hC, rfl⟩

/-- Calls at once account for their lines. -/
theorem accounts_at_once {ks : List (Ctx × Call)} (h : Run ((printf budget).AtOnce (settle budget) C) .boot ks s)
    (hC : ∀ s c, C s c → Moderate s) (a : Nat) :
    (lineTexts s.printed).Sublist (ks.map (·.2.text)) ∧ Accounted budget ks.length s ∧
      ∃ x, Sim s x ∧ x.Bounded 1000 budget.toNat a := by
  refine h.inv_trace (I := fun ks s => (lineTexts s.printed).Sublist (ks.map (·.2.text)) ∧
    Accounted budget ks.length s ∧ ∃ x, Sim s x ∧ x.Bounded 1000 budget.toNat a)
    ⟨List.Sublist.refl _, .boot, .init, .boot, .init⟩ ?_
  rintro ks s k t - ⟨horder, hacc, x, hsim, hx⟩ hstep
  obtain ⟨hc, rfl⟩ := next_of_atOnce hstep
  have hm := hC _ _ hc
  refine ⟨?_, ?_, _, hsim.next hm, hx.event hsim.may⟩
  · rw [lineTexts_next hm, List.map_append]
    refine horder.append ?_
    split_ifs
    · exact List.Sublist.refl _
    · exact List.nil_sublist _
  · rw [List.length_append]
    exact hacc.next hm

/-- What has been printed stays printed. -/
theorem printed_settled : ∃ l, (x.settled (settle budget)).printed = x.shared.printed ++ l := by
  unfold Two.settled
  cases x.irq <|> x.thread with
  | none => exact ⟨[], (List.append_nil _).symm⟩
  | some f => exact ⟨_, rfl⟩

/-- **In every run in which no call cuts in on another each line is printed, reported as dropped or about
to be reported**, once its call has returned; what is printed stands in the order of the calls, and of the
lines logged in a second no more than twice the budget are printed, and one report. -/
theorem log_accounts (h : Run (Logs budget) boot tr x) (a : Nat) :
    (lineTexts x.shared.printed).Sublist (logged tr) ∧
      (x.Quiescent → (lineTexts x.shared.printed).length + reported x.shared.printed +
        x.shared.log.dropped.toNat = (logged tr).length) ∧
      Limiter.within 1000 a (lineTimes x.shared.printed) ≤ 2 * budget.toNat ∧
      Limiter.within 1000 a (reportTimes x.shared.printed) ≤ 1 := by
  obtain ⟨-, hrun⟩ := (printf_settles budget).run ⟨rfl, rfl⟩ h
  obtain ⟨horder, hacc, y, hsim, hy⟩ := accounts_at_once hrun (fun _ _ h => h) a
  obtain ⟨l, hl⟩ : ∃ l, (x.settled (settle budget)).printed = x.shared.printed ++ l := printed_settled
  refine ⟨?_, fun hq => ?_, ?_, ?_⟩
  · rw [hl, lineTexts_append] at horder
    exact (List.sublist_append_left _ _).trans horder
  · rw [Two.settled_of_quiescent hq] at hacc
    exact hacc.total.trans (List.length_map _).symm
  · refine Nat.le_trans ?_ hy.late.1
    rw [← hsim.lines, hl, lineTimes_append]
    exact (List.sublist_append_left _ _).countP_le
  · refine Nat.le_trans ?_ hy.late.2
    have hreports := hsim.reports
    rw [hl, reportTimes_append] at hreports
    exact ((List.sublist_append_left _ _).trans hreports).countP_le

/-- A step of `Logs`, to evaluate. -/
def logStep (budget : UInt32) (x : Two Console Frame) (e : TwoEvent Call Unit) : Option (Two Console Frame) :=
  match e with
  | .call .. => if x.thread = none ∧ x.irq = none ∧ x.shared.log.lines.toNat + 1 < 2 ^ 32 then
      (printf budget).exec x e else none
  | .step .. => (printf budget).exec x e

theorem logs_of_logStep (h : logStep budget x e = some y) : Logs budget x e y := by
  cases e with
  | call c k =>
    obtain ⟨⟨hthread, hirq, hm⟩, h⟩ := Option.ite_none_right_eq_some.mp h
    exact ⟨Prog.step_of_exec h, ⟨hthread, hirq⟩, hm⟩
  | step c o => exact ⟨Prog.step_of_exec h, trivial⟩

/-- A call, and its accesses. -/
def callOf (x : Ctx) (c : Call) (n : Nat) : List (TwoEvent Call Unit) :=
  .call x c :: List.replicate n (.step x ())

/-- Twenty-five lines at once: twenty of thread context are printed, five of PendSV dropped. -/
def burst : List (TwoEvent Call Unit) :=
  (List.replicate 20 (callOf .thread ⟨0, "retry\n", 6⟩ 4)).flatten ++
    (List.replicate 5 (callOf .irq ⟨0, "retry\n", 6⟩ 5)).flatten

theorem log_accounts_burst : ∃ x, Run (Logs 20) boot (burst ++ callOf .thread ⟨1000, "up\n", 3⟩ 9) x ∧
    (lineTexts x.shared.printed).length = 21 ∧ reported x.shared.printed = 5 ∧
    Limiter.within 1000 1 (lineTimes x.shared.printed) ≤ 2 * 20 := by
  obtain ⟨x, h, hp⟩ : ∃ x, Run (Logs 20) boot (burst ++ callOf .thread ⟨1000, "up\n", 3⟩ 9) x ∧
      decide (x.thread = none ∧ x.irq = none ∧ reported x.shared.printed = 5 ∧
        x.shared.log.dropped.toNat = 0) = true :=
    Run.ofFold_any (f := logStep 20) (p := fun x => x.thread = none ∧ x.irq = none ∧
      reported x.shared.printed = 5 ∧ x.shared.log.dropped.toNat = 0)
      (fun _ _ _ => logs_of_logStep) (by decide +kernel)
  obtain ⟨hthread, hirq, hreported, hdropped⟩ := of_decide_eq_true hp
  obtain ⟨-, htotal, hwithin, -⟩ := log_accounts h 1
  have hlength : (logged (burst ++ callOf .thread ⟨1000, "up\n", 3⟩ 9)).length = 26 := rfl
  have := htotal ⟨hthread, hirq⟩
  exact ⟨x, h, by omega, hreported, hwithin⟩

/-- Such calls, of which none comes too late. -/
def LogsOften (budget : UInt32) (s : Two Console Frame) (e : TwoEvent Call Unit) (t : Two Console Frame) : Prop :=
  (printf budget).Step s e t ∧ s.Alone (fun s c => Frequent c ∧ Moderate s) e

/-- **Where the clock does not wrap between two calls and none cuts in on another, a line is printed unless
the budget was used up in the second before it**: its call, left alone, returns what `MM_HALOW_VPRINTF`
has returned. -/
theorem log_prints (h : Run (LogsOften budget) boot tr x) (hq : x.Quiescent) (hc : Frequent c)
    (hm : Moderate x.shared)
    (hfew : (lineTimes x.shared.printed).countP (fun u => x.shared.now + c.dt < u + 1000) < budget.toNat)
    (i : Ctx) : ∃ n ≤ 10, ∃ y, Run (LogsOften budget) x (callOf i c n) y ∧ y.Quiescent ∧
      lineTexts y.shared.printed = lineTexts x.shared.printed ++ [c.text] ∧
      y.shared.returned = x.shared.returned ++ [c.ret] := by
  obtain ⟨-, hrun⟩ := (printf_settles budget).run ⟨rfl, rfl⟩ h
  rw [Two.settled_of_quiescent hq] at hrun
  obtain ⟨s, thread, irq⟩ := x
  obtain ⟨rfl, rfl⟩ := hq
  have hm : Moderate s := hm
  have hinv := hrun.inv (I := fun s => ∃ x, Sim s x ∧ x.Full 1000 budget.toNat)
    ⟨.init, .boot, .init (by decide)⟩ <| by
    rintro s k t ⟨x, hsim, hx⟩ hstep
    obtain ⟨⟨hc, hm⟩, rfl⟩ := next_of_atOnce hstep
    exact ⟨_, hsim.next hm, hx.event (by decide) (hsim.prompt hx.last hc)⟩
  obtain ⟨y, hsim, hy⟩ := hinv
  have hprompt := hsim.prompt hy.last hc
  have hcount : (y.event budget.toNat (fresh s c) (s.now + c.dt)).count ≤ budget.toNat := by
    refine Nat.not_lt.mp fun hout => Nat.not_le.mpr hfew ?_
    rw [show lineTimes s.printed = y.admitted from hsim.lines]
    exact hy.turned_away hprompt hout
  have hwl := window_lines hm (tick (s.now + c.dt))
  have hlines := (count_counts budget c.text c.ret hwl).2
  have hnext : ((s.log.window (tick (s.now + c.dt))).1.count budget c.text c.ret).1.lines.toNat =
      (y.event budget.toNat (fresh s c) (s.now + c.dt)).count := (hsim.next hm).count
  have hle : (s.log.window (tick (s.now + c.dt))).1.lines.toNat + 1 ≤ budget.toNat := by omega
  obtain ⟨n, hn, hsteps⟩ := (printf_settles budget).run_only left_next
    (fun s c => Frequent c ∧ Moderate s) i () ⟨c, s.now + c.dt, .window⟩ { s with now := s.now + c.dt }
  have hcall : (printf budget).Step ⟨s, none, none⟩ (.call i c)
      (.only { s with now := s.now + c.dt } (some ⟨c, s.now + c.dt, .window⟩) i) := by
    cases i with
    | thread => exact .threadCall rfl
    | irq => exact .irqCall rfl
  refine ⟨n, hn, _, Run.cons ⟨hcall, ⟨rfl, rfl⟩, hc, hm⟩ hsteps, Two.only_none, ?_⟩
  have hshared : (Two.only (settle budget { s with now := s.now + c.dt } ⟨c, s.now + c.dt, .window⟩)
      (none : Option Frame) i).shared = s.next budget c := by
    cases i <;> rfl
  rw [hshared, lineTexts_next hm, if_pos hle]
  refine ⟨rfl, congrArg (s.returned ++ [·]) ?_⟩
  show ((s.log.window (tick (s.now + c.dt))).1.count budget c.text c.ret).2.2 = c.ret
  unfold Statics.count
  rw [if_neg fun hover => (over_budget_iff hwl).mp hover hle]

/-- Such a step, to evaluate. -/
def logStepOften (budget : UInt32) (x : Two Console Frame) (e : TwoEvent Call Unit) :
    Option (Two Console Frame) :=
  match e with
  | .call _ c => if c.dt + 1000 ≤ 2 ^ 32 then logStep budget x e else none
  | .step .. => logStep budget x e

theorem logsOften_of_logStepOften (h : logStepOften budget x e = some y) : LogsOften budget x e y := by
  cases e with
  | call i c =>
    have hif : (if c.dt + 1000 ≤ 2 ^ 32 then logStep budget x (.call i c) else none) = some y := h
    obtain ⟨hc, hlog⟩ := Option.ite_none_right_eq_some.mp hif
    obtain ⟨hstep, hq, hm⟩ := logs_of_logStep hlog
    exact ⟨hstep, hq, hc, hm⟩
  | step i o => exact ⟨Prog.step_of_exec h, trivial⟩

theorem log_prints_burst : ∃ x, Run (LogsOften 20) boot burst x ∧ ∃ n ≤ 10, ∃ y,
    Run (LogsOften 20) x (callOf .thread ⟨1000, "up\n", 3⟩ n) y ∧ y.Quiescent ∧
      lineTexts y.shared.printed = lineTexts x.shared.printed ++ ["up\n"] ∧
      y.shared.returned = x.shared.returned ++ [3] := by
  obtain ⟨x, h, hp⟩ : ∃ x, Run (LogsOften 20) boot burst x ∧
      decide (x.thread = none ∧ x.irq = none ∧ x.shared.log.lines.toNat + 1 < 2 ^ 32 ∧
        (lineTimes x.shared.printed).countP (fun u => x.shared.now + 1000 < u + 1000) < 20) = true :=
    Run.ofFold_any (f := logStepOften 20) (p := fun x => x.thread = none ∧ x.irq = none ∧
        x.shared.log.lines.toNat + 1 < 2 ^ 32 ∧
        (lineTimes x.shared.printed).countP (fun u => x.shared.now + 1000 < u + 1000) < 20)
      (fun _ _ _ => logsOften_of_logStepOften) (by decide +kernel)
  obtain ⟨hthread, hirq, hm, hfew⟩ := of_decide_eq_true hp
  exact ⟨x, h, log_prints (c := ⟨1000, "up\n", 3⟩) h ⟨hthread, hirq⟩
    (show 1000 + 1000 ≤ 2 ^ 32 by decide) hm hfew .thread⟩

/-! ## Calls that cut in on each other -/

/-- An access prints the call's own line or none, and with the line the call has returned. -/
theorem next_lineTexts {g : Option Frame} (h : f.next budget s = (t, g)) :
    lineTexts t.printed = lineTexts s.printed ∧ (∀ f' ∈ g, f'.call = f.call) ∨
      lineTexts t.printed = lineTexts s.printed ++ [f.call.text] ∧ g = none := by
  obtain ⟨c, time, pc⟩ := f
  cases pc with
  | vprintf =>
    obtain ⟨rfl, rfl⟩ := Prod.mk.inj h
    exact .inr ⟨lineTexts_append _ _, rfl⟩
  | report =>
    obtain ⟨rfl, rfl⟩ := Prod.mk.inj h
    refine .inl ⟨(lineTexts_append _ _).trans (List.append_nil _), fun f' hf' => ?_⟩
    obtain rfl := Option.some.inj hf'
    rfl
  | storeDropped =>
    obtain ⟨rfl, rfl⟩ := Prod.mk.inj h
    exact .inl ⟨rfl, nofun⟩
  | _ =>
    obtain ⟨rfl, rfl⟩ := Prod.mk.inj h
    refine .inl ⟨rfl, fun f' hf' => ?_⟩
    obtain rfl := Option.some.inj hf'
    rfl

/-- How often a context may still print the line. -/
def owing (text : String) (f : Option Frame) : Nat := f.elim 0 fun f => if f.call.text = text then 1 else 0

theorem owing_next {g : Option Frame} (h : f.next budget s = (t, g)) (text : String) :
    (lineTexts t.printed).count text + owing text g ≤ (lineTexts s.printed).count text + owing text (some f) := by
  obtain ⟨htexts, hcall⟩ | ⟨htexts, rfl⟩ := next_lineTexts h
  · rw [htexts]
    cases g with
    | none => exact Nat.add_le_add_left (Nat.zero_le _) _
    | some f' =>
      unfold owing
      simp only [Option.elim, hcall f' rfl]
      exact Nat.le_refl _
  · rw [htexts, List.count_append, List.count_singleton]
    unfold owing
    simp only [Option.elim, beq_iff_eq, Nat.add_zero, Nat.le_refl]

/-- **However calls cut in on each other a line that is printed has been logged**, and once for each time. -/
theorem printed_once (h : Run (printf budget).Step boot tr x) (text : String) :
    (lineTexts x.shared.printed).count text ≤ (logged tr).count text := by
  have hinv : (lineTexts x.shared.printed).count text + (owing text x.thread + owing text x.irq) ≤
      (logged tr).count text := by
    refine h.inv_trace (I := fun tr (x : Two Console Frame) => (lineTexts x.shared.printed).count text +
      (owing text x.thread + owing text x.irq) ≤ (logged tr).count text) (Nat.zero_le _) ?_
    rintro tr x e y - hle hstep
    rw [logged_snoc, List.count_append]
    cases hstep with
    | threadCall hst | irqCall hst =>
      obtain ⟨rfl, rfl⟩ := Prod.mk.inj (Option.some.inj hst)
      simp only [owing, Option.elim, TwoEvent.made, Option.toList_some, List.map_cons, List.map_nil,
        List.count_singleton, beq_iff_eq] at hle ⊢
      omega
    | threadStep hnext | irqStep hnext =>
      have hmove := owing_next hnext text
      simp only [TwoEvent.made, Option.toList_none, List.map_nil, List.count_nil, Nat.add_zero] at hle ⊢
      omega
  exact Nat.le_trans (Nat.le_add_right _ _) hinv

/-- Nothing may be printed; PendSV logs a line between the two halves of thread context's `dropped++`. -/
def cutIn : List (TwoEvent Call Unit) :=
  callOf .thread ⟨0, "retry\n", 6⟩ 4 ++ callOf .irq ⟨0, "retry\n", 6⟩ 5 ++ [.step .thread ()]

/-- **Where calls cut in on each other lines are lost without a word.** -/
theorem cut_in_loses : ¬ ∀ budget tr x, Run (printf budget).Step boot tr x → x.Quiescent →
    (lineTexts x.shared.printed).length + reported x.shared.printed + x.shared.log.dropped.toNat =
      (logged tr).length := by
  intro h
  obtain ⟨x, hr, hp⟩ : ∃ x, Run (printf 0).Step boot cutIn x ∧
      decide (x.thread = none ∧ x.irq = none ∧ x.shared.printed = [] ∧ x.shared.log.dropped = 1) = true :=
    Run.ofFold_any (f := (printf 0).exec) (p := fun x => x.thread = none ∧ x.irq = none ∧
      x.shared.printed = [] ∧ x.shared.log.dropped = 1) (fun _ _ _ => Prog.step_of_exec) (by decide +kernel)
  obtain ⟨hthread, hirq, hprinted, hdropped⟩ := of_decide_eq_true hp
  have htotal := h 0 cutIn x hr ⟨hthread, hirq⟩
  rw [hprinted, hdropped] at htotal
  exact absurd htotal (by decide)

end MmHalow.Osal.Printf
