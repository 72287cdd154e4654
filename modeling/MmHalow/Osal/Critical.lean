import MmHalow.Lib.Run
import Mathlib.Algebra.Group.Nat.Defs

/-!
# Critical sections (`mm_halow_osal.c`)

`mmosal_task_enter_critical` masks interrupts and counts, `mmosal_task_exit_critical` restores the
mask where the count gets back to zero. Count and saved state are globals, not per task, and the
outermost call alone saves and restores. Here the calls are made instruction by instruction, by tasks
that give up their turn to one another and by interrupts that cut in wherever they are not masked.

* `Port`: what the port's macros do to the interrupt mask.
* `Fits`: what count, saved state and mask are at each instruction.
* `critical_sections`: **while the count is not zero interrupts are masked and no other context gets
  a turn, nobody else has a section open, and closing the last one restores the mask.** That no turn
  is given up inside a section is what `mmhal_wlan_spi_cs_assert` checks `mm_halow_osal_in_critical`
  for; that waits are made outside sections is promised by the callers (`Kept`).
-/

namespace MmHalow.Osal.Critical

open MmHalow.Lib

/-! ## The port -/

/-- `MM_HALOW_BEGIN_ATOMIC_SECTION` and `MM_HALOW_END_ATOMIC_SECTION` for masks `M` and the opaque
states `W` that the first returns. -/
structure Port (M W : Type) where
  masked : M → Bool
  /-- The mask inside the section. -/
  off : M → M
  /-- What the first returns. -/
  save : M → W
  /-- The mask that the second leaves. -/
  restore : W → M
  masked_off (m : M) : masked (off m) = true
  restore_save (m : M) : restore (save m) = m

/-! ## The machine -/

/-- Where a context stands in a call. -/
inductive Pc (W : Type) where
  | enterBegin
  | enterLoad (state : W)
  | enterStore (state : W) (n : UInt32)
  | enterState (state : W)
  | exitCheck
  | exitLoad
  | exitStore (n : UInt32)
  | exitEnd
  /-- The plain sections of the driver, which save to a local variable. -/
  | sectionBegin
  | sectionEnd (state : W)
  deriving DecidableEq, Repr

/-- A context: how many sections it has open, counted here, and where it stands. -/
structure Context (W : Type) where
  held : Nat
  pc : Option (Pc W)
  deriving DecidableEq, Repr

/-- A context that makes no call and has no section open. -/
def Context.idle {W : Type} : Context W := ⟨0, none⟩

/-- The statics with the interrupt mask and the contexts. -/
structure Machine (M W : Type) where
  /-- `mm_halow_critical_nesting`. -/
  nesting : UInt32
  /-- `mm_halow_critical_state`. -/
  state : W
  mask : M
  /-- The mask that the code outside the driver set last. -/
  rest : M
  running : Context W
  /-- What interrupts have cut off, innermost first. -/
  preempted : List (Context W)
  /-- The tasks without a turn, and what gave them theirs. -/
  parked : List (Context W)
  deriving DecidableEq, Repr

/-- A call that a context makes. -/
inductive Call where
  | enterCritical
  | exitCritical
  | plain
  deriving DecidableEq, Repr

/-- What happens next. -/
inductive Event (M : Type) where
  | call (k : Call)
  | step
  /-- `mmhal_wlan_spi_cs_assert`, with what `mm_halow_sched_over_budget` says and whose turn is next. -/
  | csAssert (overBudget : Bool) (i : Nat)
  /-- Any other turn given up, to the parked context `i`. -/
  | wait (i : Nat)
  | create
  | interrupt
  | ret
  /-- Code outside the driver sets the mask. -/
  | setMask (m : M)
  deriving DecidableEq, Repr

variable {M W : Type} {P : Port M W} {s t : Machine M W} {e : Event M}

def Call.start : Call → Pc W
  | .enterCritical => .enterBegin
  | .exitCritical => .exitCheck
  | .plain => .sectionBegin

/-- `mm_halow_osal_in_critical`. -/
def inCritical (s : Machine M W) : Bool := decide (0 < s.nesting)

/-- The next instruction of `mmosal_task_enter_critical`, `mmosal_task_exit_critical` or a plain
section. -/
def instr (P : Port M W) (s : Machine M W) : Pc W → Machine M W
  | .enterBegin => { s with
      mask := P.off s.mask
      running := ⟨s.running.held, some (.enterLoad (P.save s.mask))⟩ }
  | .enterLoad w => { s with running := ⟨s.running.held, some (.enterStore w s.nesting)⟩ }
  | .enterStore w n => { s with
      nesting := n + 1
      running := if n = 0 then ⟨s.running.held, some (.enterState w)⟩ else ⟨s.running.held + 1, none⟩ }
  | .enterState w => { s with state := w, running := ⟨s.running.held + 1, none⟩ }
  | .exitCheck => { s with
      running := if 0 < s.nesting then ⟨s.running.held - 1, some .exitLoad⟩ else ⟨s.running.held, none⟩ }
  | .exitLoad => { s with running := ⟨s.running.held, some (.exitStore s.nesting)⟩ }
  | .exitStore n => { s with
      nesting := n - 1
      running := ⟨s.running.held, if n - 1 = 0 then some .exitEnd else none⟩ }
  | .exitEnd => { s with mask := P.restore s.state, running := ⟨s.running.held, none⟩ }
  | .sectionBegin => { s with
      mask := P.off s.mask
      running := ⟨s.running.held, some (.sectionEnd (P.save s.mask))⟩ }
  | .sectionEnd w => { s with mask := P.restore w, running := ⟨s.running.held, none⟩ }

/-- The running context and the parked one at `i` change places. -/
def switchTo (s : Machine M W) (i : Nat) : Option (Machine M W) :=
  (s.parked[i]?).map fun c => { s with
    running := c
    parked := s.parked.set i s.running }

/-- What a context does between calls. -/
def act (s : Machine M W) : Event M → Option (Machine M W)
  | .call k => some { s with running := ⟨s.running.held, some k.start⟩ }
  | .csAssert overBudget i => if overBudget && !inCritical s then switchTo s i else some s
  | .wait i => switchTo s i
  | .create => some { s with parked := .idle :: s.parked }
  | .ret => s.preempted.head?.map fun c => { s with running := c, preempted := s.preempted.tail }
  | .setMask m => if s.preempted.isEmpty then some { s with mask := m, rest := m } else none
  | _ => none

/-- **One step**; `none` where it cannot be made. -/
def step (P : Port M W) (s : Machine M W) : Event M → Option (Machine M W)
  | .step => s.running.pc.map (instr P s)
  | .interrupt => if P.masked s.mask then none else
      some { s with running := .idle, preempted := s.running :: s.preempted }
  | e => if s.running.pc.isSome then none else act s e

/-- **What the callers promise**: to nest less than `2^32` deep, and outside critical sections to
wait, to return from an interrupt and to set the mask by other means. An exit needs no enter. -/
def Kept (s : Machine M W) : Event M → Prop
  | .call .enterCritical => s.running.held + 1 < 2 ^ 32
  | .wait _ | .ret | .setMask _ => s.running.held = 0
  | _ => True

instance : (e : Event M) → Decidable (Kept s e)
  | .call .enterCritical => inferInstanceAs (Decidable (s.running.held + 1 < 2 ^ 32))
  | .wait _ | .ret | .setMask _ => inferInstanceAs (Decidable (s.running.held = 0))
  | .call .exitCritical | .call .plain | .step | .csAssert _ _ | .create | .interrupt => .isTrue trivial

/-- A step where the promises are kept. -/
def Step (P : Port M W) (s : Machine M W) (e : Event M) (t : Machine M W) : Prop :=
  step P s e = some t ∧ Kept s e

/-- The machine at reset. -/
def boot (m : M) (w : W) : Machine M W := ⟨0, w, m, m, .idle, [], []⟩

/-! ## The invariant -/

/-- The context stands before an instruction that looks at the mask. -/
def Pc.Before : Option (Pc W) → Prop
  | none | some .enterBegin | some .exitCheck | some .sectionBegin => True
  | _ => False

/-- Interrupts are masked and the outermost section has saved the mask that was there. -/
structure Inside (P : Port M W) (s : Machine M W) : Prop where
  masked : P.masked s.mask = true
  state : s.state = P.save s.rest

/-- The count where the running context has `h` sections open. -/
structure Counted (P : Port M W) (s : Machine M W) (h : Nat) : Prop where
  count : s.nesting.toNat = h
  rest : h = 0 → s.mask = s.rest
  inside : 0 < h → Inside P s

/-- The same where interrupts have just been masked, and `w` was returned. -/
structure Taken (P : Port M W) (s : Machine M W) (h : Nat) (w : W) : Prop where
  count : s.nesting.toNat = h
  masked : P.masked s.mask = true
  saved : h = 0 → w = P.save s.rest
  inside : 0 < h → Inside P s

/-- **Count, saved state and mask** where the running context has `h` sections open. -/
def Fits (P : Port M W) (s : Machine M W) (h : Nat) : Option (Pc W) → Prop
  | none | some .exitCheck | some .sectionBegin => Counted P s h
  | some .enterBegin => Counted P s h ∧ h + 1 < 2 ^ 32
  | some (.enterLoad w) => Taken P s h w ∧ h + 1 < 2 ^ 32
  | some (.enterStore w n) => n = s.nesting ∧ Taken P s h w ∧ h + 1 < 2 ^ 32
  | some (.enterState w) =>
    h = 0 ∧ s.nesting.toNat = 1 ∧ P.masked s.mask = true ∧ w = P.save s.rest
  | some .exitLoad => s.nesting.toNat = h + 1 ∧ Inside P s
  | some (.exitStore n) => n = s.nesting ∧ s.nesting.toNat = h + 1 ∧ Inside P s
  | some .exitEnd => h = 0 ∧ s.nesting.toNat = 0 ∧ Inside P s
  | some (.sectionEnd w) => Taken P s h w ∧ (0 < h → P.masked (P.restore w) = true)

/-- **The invariant**: whoever does not run has no section open. -/
structure Sound (P : Port M W) (s : Machine M W) : Prop where
  running : Fits P s s.running.held s.running.pc
  preempted : ∀ c ∈ s.preempted, c.held = 0 ∧ Pc.Before c.pc
  parked : ∀ c ∈ s.parked, c = .idle

/-- A context that has no section open, before an instruction that looks at the mask. -/
theorem Counted.fits {pc : Option (Pc W)} (h : Counted P s 0) (hpc : Pc.Before pc) : Fits P s 0 pc := by
  cases pc with
  | none => exact h
  | some pc =>
    cases pc with
    | enterBegin => exact ⟨h, by decide⟩
    | exitCheck | sectionBegin => exact h
    | _ => exact hpc.elim

/-- Where interrupts are not masked no section is open. -/
theorem Fits.unmasked {h : Nat} {pc : Option (Pc W)} (hf : Fits P s h pc)
    (hm : P.masked s.mask = false) : h = 0 ∧ Pc.Before pc ∧ Counted P s 0 := by
  have hout : ¬ P.masked s.mask = true := Bool.eq_false_iff.mp hm
  have hzero : Counted P s h → h = 0 ∧ Counted P s 0 := fun hc => by
    obtain rfl : h = 0 := by
      by_contra hne
      exact hout (hc.inside (Nat.pos_of_ne_zero hne)).masked
    exact ⟨rfl, hc⟩
  cases pc with
  | none => exact ⟨(hzero hf).1, trivial, (hzero hf).2⟩
  | some pc =>
    cases pc with
    | enterBegin => exact ⟨(hzero hf.1).1, trivial, (hzero hf.1).2⟩
    | exitCheck | sectionBegin => exact ⟨(hzero hf).1, trivial, (hzero hf).2⟩
    | enterLoad => exact absurd hf.1.masked hout
    | enterStore => exact absurd hf.2.1.masked hout
    | enterState => exact absurd hf.2.2.1 hout
    | exitLoad => exact absurd hf.2.masked hout
    | exitStore | exitEnd => exact absurd hf.2.2.masked hout
    | sectionEnd => exact absurd hf.1.masked hout

/-- While the count is not zero interrupts are masked. -/
theorem Fits.masked {h : Nat} {pc : Option (Pc W)} (hf : Fits P s h pc) (hn : 0 < s.nesting.toNat) :
    P.masked s.mask = true := by
  by_contra hm
  obtain ⟨-, -, hc⟩ := hf.unmasked (Bool.eq_false_iff.mpr hm)
  rw [hc.count] at hn
  exact absurd hn (Nat.lt_irrefl 0)

/-! ## Instructions -/

theorem Counted.take {h : Nat} (hc : Counted P s h) (hmask : t.mask = P.off s.mask)
    (hnesting : t.nesting = s.nesting) (hstate : t.state = s.state) (hrest : t.rest = s.rest) :
    Taken P t h (P.save s.mask) where
  count := hnesting ▸ hc.count
  masked := hmask ▸ P.masked_off s.mask
  saved he := by rw [hc.rest he, hrest]
  inside hlt := ⟨hmask ▸ P.masked_off s.mask, by rw [hstate, hrest, (hc.inside hlt).state]⟩

theorem instr_preempted (pc : Pc W) : (instr P s pc).preempted = s.preempted := by cases pc <;> rfl

theorem instr_parked (pc : Pc W) : (instr P s pc).parked = s.parked := by cases pc <;> rfl

/-- **An instruction keeps the invariant.** -/
theorem Fits.instr {pc : Pc W} (h : Fits P s s.running.held (some pc)) :
    Fits P (instr P s pc) (instr P s pc).running.held (instr P s pc).running.pc := by
  cases pc with
  | enterBegin =>
    obtain ⟨hc, hlt⟩ := h
    exact ⟨hc.take rfl rfl rfl rfl, hlt⟩
  | enterLoad w =>
    obtain ⟨ht, hlt⟩ := h
    exact ⟨rfl, ⟨ht.count, ht.masked, ht.saved, fun hpos => ⟨ht.masked, (ht.inside hpos).state⟩⟩, hlt⟩
  | enterStore w n =>
    obtain ⟨rfl, ht, hlt⟩ := h
    have hcount : (s.nesting + 1).toNat = s.running.held + 1 := by
      rw [UInt32.toNat_add, ht.count]
      exact Nat.mod_eq_of_lt hlt
    simp only [Critical.instr]
    split_ifs with hz
    · -- the outermost section
      have hh : s.running.held = 0 := by rw [← ht.count, hz]; rfl
      exact ⟨hh, by rw [hcount, hh], ht.masked, ht.saved hh⟩
    · have hh : 0 < s.running.held := by
        rw [← ht.count]
        exact Nat.pos_of_ne_zero fun he => hz (UInt32.toNat_inj.mp he)
      exact ⟨hcount, fun he => absurd he (Nat.succ_ne_zero _),
        fun _ => ⟨ht.masked, (ht.inside hh).state⟩⟩
  | enterState w =>
    obtain ⟨hh, hn, hm, hw⟩ := h
    have hcount : s.nesting.toNat = s.running.held + 1 := by rw [hn, hh]
    exact ⟨hcount, fun he => absurd he (Nat.succ_ne_zero _), fun _ => ⟨hm, hw⟩⟩
  | exitCheck =>
    have hc : Counted P s s.running.held := h
    simp only [Critical.instr]
    split_ifs with hpos
    · have hh : 0 < s.running.held := hc.count ▸ UInt32.lt_iff_toNat_lt.mp hpos
      have hin := hc.inside hh
      exact ⟨by rw [hc.count]; exact (Nat.sub_add_cancel hh).symm, hin.masked, hin.state⟩
    · exact ⟨hc.count, hc.rest, fun hh => ⟨(hc.inside hh).masked, (hc.inside hh).state⟩⟩
  | exitLoad =>
    obtain ⟨hn, hin⟩ := h
    exact ⟨rfl, hn, hin.masked, hin.state⟩
  | exitStore n =>
    obtain ⟨rfl, hn, hin⟩ := h
    have hle : (1 : UInt32) ≤ s.nesting :=
      UInt32.le_iff_toNat_le.mpr (by rw [hn]; exact Nat.le_add_left _ _)
    have hcount : (s.nesting - 1).toNat = s.running.held := by
      rw [UInt32.toNat_sub_of_le _ _ hle, hn]
      rfl
    simp only [Critical.instr]
    split_ifs with hz
    · exact ⟨by rw [← hcount, hz]; rfl, by rw [hz]; rfl, hin.masked, hin.state⟩
    · refine ⟨hcount, fun he => ?_, fun _ => ⟨hin.masked, hin.state⟩⟩
      exact absurd (UInt32.toNat_inj.mp (hcount.trans (he.trans UInt32.toNat_zero.symm))) hz
  | exitEnd =>
    obtain ⟨hh, hn, hin⟩ := h
    refine ⟨hn.trans hh.symm, fun _ => ?_, fun hpos => absurd (hh ▸ hpos) (Nat.lt_irrefl 0)⟩
    show P.restore s.state = s.rest
    rw [hin.state, P.restore_save]
  | sectionBegin =>
    have hc : Counted P s s.running.held := h
    refine ⟨hc.take rfl rfl rfl rfl, fun hpos => ?_⟩
    rw [P.restore_save]
    exact (hc.inside hpos).masked
  | sectionEnd w =>
    obtain ⟨ht, hm⟩ := h
    refine ⟨ht.count, fun he => ?_, fun hpos => ⟨hm hpos, (ht.inside hpos).state⟩⟩
    show P.restore w = s.rest
    rw [ht.saved he, P.restore_save]

/-! ## Steps -/

/-- Between calls with no section open. -/
theorem Sound.counted (h : Sound P s) (hpc : s.running.pc = none) : Counted P s s.running.held := by
  have hr := h.running
  rwa [hpc] at hr

theorem Context.eq_idle {c : Context W} (hh : c.held = 0) (hpc : c.pc = none) : c = .idle := by
  obtain ⟨held, pc⟩ := c
  obtain rfl : held = 0 := hh
  obtain rfl : pc = none := hpc
  rfl

/-- **A turn given up with no section open** leaves none open. -/
theorem Sound.switchTo {i : Nat} (h : Sound P s) (hpc : s.running.pc = none) (hh : s.running.held = 0)
    (ht : switchTo s i = some t) : Sound P t := by
  obtain ⟨c, hc, rfl⟩ := Option.map_eq_some_iff.mp ht
  have hcounted : Counted P s 0 := hh ▸ h.counted hpc
  refine ⟨?_, h.preempted, fun d hd => ?_⟩
  · rw [h.parked c (List.mem_of_getElem? hc)]
    exact ⟨hcounted.count, hcounted.rest, fun hpos => absurd hpos (Nat.lt_irrefl 0)⟩
  · obtain hd | rfl := List.mem_or_eq_of_mem_set hd
    · exact h.parked d hd
    · exact Context.eq_idle hh hpc

/-- The mask, the count and what is saved are as they were, and the running context still fits. -/
theorem Counted.keep {h : Nat} (hc : Counted P s h) (hmask : t.mask = s.mask) (hrest : t.rest = s.rest)
    (hnesting : t.nesting = s.nesting) (hstate : t.state = s.state) : Counted P t h where
  count := hnesting ▸ hc.count
  rest he := by rw [hmask, hrest, hc.rest he]
  inside hpos := ⟨hmask ▸ (hc.inside hpos).masked, by rw [hstate, hrest, (hc.inside hpos).state]⟩

/-- **What a context does between calls** keeps the invariant. -/
theorem Sound.act (h : Sound P s) (hpc : s.running.pc = none) (hk : Kept s e)
    (hs : act s e = some t) : Sound P t := by
  have hc := h.counted hpc
  cases e with
  | step | interrupt => exact absurd hs (Option.some_ne_none t).symm
  | call k =>
    obtain rfl := Option.some.inj hs
    refine ⟨?_, h.preempted, h.parked⟩
    cases k with
    | enterCritical => exact ⟨hc.keep rfl rfl rfl rfl, hk⟩
    | exitCritical | plain => exact hc.keep rfl rfl rfl rfl
  | csAssert overBudget i =>
    simp only [Critical.act] at hs
    split_ifs at hs with hover
    · -- the check that the bus path makes
      have hout : inCritical s = false := by simpa using (Bool.and_eq_true_iff.mp hover).2
      have hz : s.nesting = 0 := by
        by_contra hne
        exact of_decide_eq_false hout (UInt32.pos_iff_ne_zero.mpr hne)
      exact h.switchTo hpc (by rw [← hc.count, hz]; rfl) hs
    · obtain rfl := Option.some.inj hs
      exact h
  | wait i => exact h.switchTo hpc hk hs
  | create =>
    obtain rfl := Option.some.inj hs
    refine ⟨?_, h.preempted, List.forall_mem_cons.mpr ⟨rfl, h.parked⟩⟩
    show Fits P _ s.running.held s.running.pc
    rw [hpc]
    exact hc.keep rfl rfl rfl rfl
  | ret =>
    obtain ⟨c, hhead, rfl⟩ := Option.map_eq_some_iff.mp hs
    obtain ⟨hheld, hbefore⟩ := h.preempted c (List.mem_of_mem_head? hhead)
    refine ⟨?_, fun d hd => h.preempted d (List.mem_of_mem_tail hd), h.parked⟩
    have hh : s.running.held = 0 := hk
    have hzero : Counted P s 0 := hh ▸ hc
    show Fits P _ c.held c.pc
    rw [hheld]
    have hc' : Counted P { s with running := c, preempted := s.preempted.tail } 0 :=
      hzero.keep rfl rfl rfl rfl
    exact hc'.fits hbefore
  | setMask m =>
    obtain ⟨-, hs⟩ := Option.ite_none_right_eq_some.mp hs
    obtain rfl := Option.some.inj hs
    refine ⟨?_, h.preempted, h.parked⟩
    have hh : s.running.held = 0 := hk
    show Fits P _ s.running.held s.running.pc
    rw [hpc, hh]
    exact ⟨hh ▸ hc.count, fun _ => rfl, fun hpos => absurd hpos (Nat.lt_irrefl 0)⟩

/-- **A step keeps the invariant.** -/
theorem Sound.step (h : Sound P s) (hs : Step P s e t) : Sound P t := by
  obtain ⟨hs, hk⟩ := hs
  cases e with
  | step =>
    obtain ⟨pc, hpc, rfl⟩ := Option.map_eq_some_iff.mp hs
    have hr := h.running
    rw [hpc] at hr
    refine ⟨hr.instr, ?_, ?_⟩
    · rw [instr_preempted]
      exact h.preempted
    · rw [instr_parked]
      exact h.parked
  | interrupt =>
    obtain ⟨hm, hs⟩ := Option.ite_none_left_eq_some.mp hs
    obtain rfl := Option.some.inj hs
    obtain ⟨hheld, hbefore, hc⟩ := h.running.unmasked (Bool.eq_false_iff.mpr hm)
    exact ⟨hc.keep rfl rfl rfl rfl, List.forall_mem_cons.mpr ⟨⟨hheld, hbefore⟩, h.preempted⟩, h.parked⟩
  | _ =>
    obtain ⟨hpc, hact⟩ := Option.ite_none_left_eq_some.mp hs
    exact h.act (by simpa using hpc) hk hact

theorem Sound.boot {m : M} {w : W} : Sound P (boot m w) where
  running := ⟨rfl, fun _ => rfl, fun hpos => absurd hpos (Nat.lt_irrefl 0)⟩
  preempted := List.forall_mem_nil _
  parked := List.forall_mem_nil _

/-! ## What a section keeps out -/

/-- Where a section is open, what the context does between calls gives nobody else a turn. -/
theorem act_alone (hin : inCritical s = true) (hheld : s.running.held ≠ 0) (hk : Kept s e)
    (hs : act s e = some t) : t.preempted = s.preempted ∧ s.parked <:+ t.parked := by
  cases e with
  | step | interrupt => exact absurd hs (Option.some_ne_none t).symm
  | call k =>
    obtain rfl := Option.some.inj hs
    exact ⟨rfl, List.suffix_rfl⟩
  | csAssert overBudget i =>
    obtain rfl : s = t := by simpa [act, hin] using hs
    exact ⟨rfl, List.suffix_rfl⟩
  | create =>
    obtain rfl := Option.some.inj hs
    exact ⟨rfl, List.suffix_cons _ _⟩
  | wait | ret | setMask => exact absurd hk hheld

/-- **Where a section is open nobody else gets a turn.** -/
theorem Sound.alone (h : Sound P s) (hin : inCritical s = true) (hs : Step P s e t) :
    t.preempted = s.preempted ∧ s.parked <:+ t.parked := by
  have hpos : 0 < s.nesting.toNat := UInt32.lt_iff_toNat_lt.mp (of_decide_eq_true hin)
  obtain ⟨hs, hk⟩ := hs
  cases e with
  | step =>
    obtain ⟨pc, -, rfl⟩ := Option.map_eq_some_iff.mp hs
    rw [instr_preempted, instr_parked]
    exact ⟨rfl, List.suffix_rfl⟩
  | interrupt =>
    obtain ⟨hm, -⟩ := Option.ite_none_left_eq_some.mp hs
    exact absurd (h.running.masked hpos) hm
  | _ =>
    obtain ⟨hpc, hact⟩ := Option.ite_none_left_eq_some.mp hs
    have hc := h.counted (by simpa using hpc)
    exact act_alone hin (hc.count ▸ Nat.ne_of_gt hpos) hk hact

/-- **A critical section is kept to itself.** In every run of tasks and interrupts: while the count is
not zero, interrupts are masked and nobody else gets a turn; whoever does not run has none open; and
between calls the count is the number of sections open, and with none open the mask is the one that
the code outside the driver has set. -/
theorem critical_sections {m : M} {w : W} {tr : List (Event M)} (h : Run (Step P) (boot m w) tr s) :
    (inCritical s = true → P.masked s.mask = true ∧
      ∀ e t, Step P s e t → t.preempted = s.preempted ∧ s.parked <:+ t.parked) ∧
      (∀ c ∈ s.preempted ++ s.parked, c.held = 0) ∧
      (s.running.pc = none →
        s.nesting.toNat = s.running.held ∧ (s.running.held = 0 → s.mask = s.rest)) := by
  have hsound : Sound P s := h.inv .boot fun _ _ _ hi hs => hi.step hs
  refine ⟨fun hin => ⟨?_, fun e t hs => hsound.alone hin hs⟩, fun c hc => ?_, fun hpc => ?_⟩
  · exact hsound.running.masked (UInt32.lt_iff_toNat_lt.mp (of_decide_eq_true hin))
  · obtain hc | hc := List.mem_append.mp hc
    · exact (hsound.preempted c hc).1
    · rw [hsound.parked c hc]
      rfl
  · have hc := hsound.counted hpc
    exact ⟨hc.count, hc.rest⟩

/-- A port with one mask bit, set inside sections. -/
def primask : Port Bool Bool where
  masked m := m
  off _ := true
  save m := m
  restore w := w
  masked_off _ := rfl
  restore_save _ := rfl

/-- The step of a context that keeps the promises. -/
def stepKept (s : Machine Bool Bool) (e : Event Bool) : Option (Machine Bool Bool) :=
  if Kept s e then step primask s e else none

theorem stepKept_step {s t : Machine Bool Bool} {e : Event Bool} (h : stepKept s e = some t) :
    Step primask s e t := by
  obtain ⟨hk, hs⟩ := Option.ite_none_right_eq_some.mp h
  exact ⟨hs, hk⟩

/-- A task is about to enter a section when an interrupt cuts in, which enters one, asserts CS over
budget and enters another. -/
def cutIn : List (Event Bool) :=
  [.create, .call .enterCritical, .interrupt, .call .enterCritical, .step, .step, .step, .step,
    .csAssert true 0, .call .enterCritical, .step, .step, .step]

theorem critical_sections_cutIn : ∃ s, Run (Step primask) (boot false false) cutIn s ∧
    s.preempted = [⟨0, some .enterBegin⟩] ∧ s.mask = true ∧ s.nesting.toNat = 2 := by
  have hfold : (cutIn.foldlM stepKept (boot false false)).any (fun s => inCritical s &&
      s.running == ⟨2, none⟩ && s.preempted == [⟨0, some .enterBegin⟩]) = true := by decide
  obtain ⟨s, hs, hp⟩ := Run.ofFold_any (f := stepKept) (fun _ _ _ h => stepKept_step h) hfold
  simp only [Bool.and_eq_true, beq_iff_eq] at hp
  obtain ⟨⟨hin, hrunning⟩, hpreempted⟩ := hp
  obtain ⟨hmasked, -, hcount⟩ := critical_sections hs
  have hheld : s.nesting.toNat = s.running.held := (hcount (by rw [hrunning])).1
  exact ⟨s, hs, hpreempted, (hmasked hin).1, by rw [hheld, hrunning]⟩

end MmHalow.Osal.Critical
