import MmHalow.Pktmem.Flow

/-!
# When transmission is paused

`mmhal_wlan_alloc_mmpkt_for_tx` has counted its own packet when it compares the counter with
`MM_HALOW_TX_PAUSE_THRESHOLD`, and pauses where the counter is above it. So the packet that leaves one
allocation free does not pause, and the one that takes the last does. Calls are complete here: one begins
only where none is under way.

* `CountedStep`: a step of complete calls, with the changes of the flow-control state counted.
* `Told`: the changes are those that `tx_flow_control_cb` has been called for, and the one under way.
* `paused_in_time_iff`: **in a run of complete calls the callback is called once for each change, and
  PAUSED is the state wherever all but one allocation are in use, exactly where no allocation rises**:
  hands out a packet while all but two are in use and the state is READY.
* `two_of_three_ready`: with three blocks, the second packet does.
-/

namespace MmHalow.Pkt

open MmHalow.Lib

/-- `enum mmwlan_tx_flow_control_state`. -/
inductive FlowControlState where
  | ready
  | paused
  deriving Repr, DecidableEq

/-- `mmhal_wlan_pktmem_tx_flow_control_state`. -/
def pktmemTxFlowControlState (a : State) : FlowControlState :=
  if a.pktmem.txDataPaused then .paused else .ready

/-- The calls are complete: one begins only where none is under way. -/
def Complete (s : Two State Pc) : TwoEvent Call Outside → Prop
  | .call _ _ => s.Quiescent
  | .step _ _ => True

/-- A step from `a` to `b` changes the flow-control state once or not at all. -/
def stateChange (a b : State) : Nat :=
  if pktmemTxFlowControlState a = pktmemTxFlowControlState b then 0 else 1

/-- A step of complete calls, with the changes of the flow-control state so far. -/
def CountedStep (c : Config) (x : Two State Pc × Nat) (e : TwoEvent Call Outside)
    (y : Two State Pc × Nat) : Prop :=
  (pktProg c).Step x.1 e y.1 ∧ Complete x.1 e ∧ y.2 = x.2 + stateChange x.1.shared y.1.shared

/-- A call at `p` has changed the state and has yet to call `tx_flow_control_cb`. -/
def untold : Option Pc → Nat
  | some (.pauseCb _) | some .unpauseCb => 1
  | _ => 0

/-- The calls of `tx_flow_control_cb`, and the one under way, are the changes of the state. -/
def Told (x : Two State Pc × Nat) : Prop :=
  x.1.shared.txFlowControlCbs + untold x.1.thread + untold x.1.irq = x.2

/-- PAUSED wherever all but one of the allocations are in use. -/
def PausedInTime (c : Config) (a : State) : Prop :=
  c.txBlocks - 1 ≤ liveData .tx a → pktmemTxFlowControlState a = .paused

/-- **The heap answers an allocation on the data path** where all but two are in use and the state is
READY. -/
def Rises (c : Config) (s : Two State Pc) : TwoEvent Call Outside → Prop
  | .step _ o => (s.thread = some (.heapAlloc .tx) ∨ s.irq = some (.heapAlloc .tx)) ∧ o.heap ≠ 0 ∧
    liveData .tx s.shared = c.txBlocks - 2 ∧ pktmemTxFlowControlState s.shared = .ready
  | .call _ _ => False

variable {c : Config} {s t : Two State Pc} {e : TwoEvent Call Outside} {x y : Two State Pc × Nat}
  {a b : State} {p : Pc} {q : Option Pc} {o : Outside} {n m : Nat}

theorem pktmemTxFlowControlState_ready :
    pktmemTxFlowControlState a = .ready ↔ a.pktmem.txDataPaused = false := by
  unfold pktmemTxFlowControlState
  cases a.pktmem.txDataPaused <;> decide

theorem stateChange_same (h : b.pktmem.txDataPaused = a.pktmem.txDataPaused) : stateChange a b = 0 := by
  unfold stateChange pktmemTxFlowControlState
  rw [h, if_pos rfl]

/-! ## One call at a time -/

/-- The one context that is in a call stands at `q`, or neither is in a call. -/
def Alone (s : Two State Pc) (q : Option Pc) : Prop :=
  s.thread = q ∧ s.irq = none ∨ s.thread = none ∧ s.irq = q

theorem Alone.quiescent (h : Alone s q) (hs : s.Quiescent) : q = none := by
  obtain ⟨rfl, -⟩ | ⟨-, rfl⟩ := h
  · exact hs.1
  · exact hs.2

theorem Alone.of_none (h : Alone s none) : s.Quiescent := by
  obtain ⟨ht, hi⟩ | ⟨ht, hi⟩ := h <;> exact ⟨ht, hi⟩

/-- **What happens next** where calls are complete: a call begins, or the one under way takes a step. -/
theorem Alone.step (hs : Alone s q) (h : (pktProg c).Step s e t) (hc : Complete s e) :
    (q = none ∧ ∃ x k p, e = .call x k ∧ startCall c s.shared k = some (t.shared, p) ∧ Alone t (some p)) ∨
    ∃ x o p q', q = some p ∧ e = .step x o ∧ advance c o s.shared p = (t.shared, q') ∧ Alone t q' := by
  cases h with
  | threadCall hst => exact .inl ⟨hs.quiescent hc, _, _, _, rfl, hst, .inl ⟨rfl, rfl⟩⟩
  | irqCall hst =>
    refine .inl ⟨hs.quiescent hc, _, _, _, rfl, hst, .inr ⟨?_, rfl⟩⟩
    exact hc.1
  | threadStep hst =>
    obtain ⟨rfl, -⟩ | ⟨h, -⟩ := hs
    · exact .inr ⟨_, _, _, _, rfl, rfl, hst, .inl ⟨rfl, rfl⟩⟩
    · exact nomatch h
  | irqStep hst =>
    obtain ⟨-, h⟩ | ⟨h, rfl⟩ := hs
    · exact nomatch h
    · exact .inr ⟨_, _, _, _, rfl, rfl, hst, .inr ⟨h, rfl⟩⟩

/-- The counter, where one call is under way. -/
theorem TxAccount.alone (h : TxAccount s) (hs : Alone s q) :
    s.shared.pktmem.txDataAllocated = liveData .tx s.shared + owedCtx .tx q := by
  unfold TxAccount at h
  obtain ⟨rfl, hi⟩ | ⟨ht, rfl⟩ := hs
  · rw [hi] at h
    simpa [owedCtx] using h
  · rw [ht] at h
    simpa [owedCtx] using h

theorem told_alone (hs : Alone s q) : Told (s, n) ↔ s.shared.txFlowControlCbs + untold q = n := by
  unfold Told
  obtain ⟨rfl, hi⟩ | ⟨ht, rfl⟩ := hs
  · rw [hi]
    rfl
  · rw [ht]
    rfl

/-! ## Steps that matter to flow control -/

@[simp] theorem setCommandFreeList_cbs (l : List Nat) (d : Dir) :
    (setCommandFreeList a l d).txFlowControlCbs = a.txFlowControlCbs := by
  cases d <;> rfl

@[simp] theorem addDataAllocated_cbs (k : Int) (d : Dir) :
    (addDataAllocated a k d).txFlowControlCbs = a.txFlowControlCbs := by
  cases d <;> rfl

@[simp] theorem addDataAllocated_paused (k : Int) (d : Dir) :
    (addDataAllocated a k d).pktmem.txDataPaused = a.pktmem.txDataPaused := by
  cases d <;> rfl

/-- The data packet that an allocation at `p` hands out. -/
def handing : Option Pc → Nat
  | some (.pauseCheck _) | some (.pauseSet _) | some (.pauseCb _) => 1
  | some (.ret (some pkt)) => if pkt.ops = .txData then 1 else 0
  | _ => 0

/-- A step that leaves the state as it is, does not call the callback and makes no packet more. -/
structure Unnoticed (a : State) (p : Pc) (b : State) (q : Option Pc) : Prop where
  flag : b.pktmem.txDataPaused = a.pktmem.txDataPaused
  cbs : b.txFlowControlCbs = a.txFlowControlCbs
  untold_before : untold (some p) = 0
  untold_after : untold q = 0
  packets : liveData .tx b + handing q ≤ liveData .tx a + handing (some p)

theorem Unnoticed.of_live (hf : b.pktmem.txDataPaused = a.pktmem.txDataPaused)
    (hn : b.txFlowControlCbs = a.txFlowControlCbs) (hp : untold (some p) = 0) (hq : untold q = 0)
    (hl : b.live = a.live) (hh : handing q ≤ handing (some p)) : Unnoticed a p b q := by
  refine ⟨hf, hn, hp, hq, ?_⟩
  unfold liveData
  rw [hl]
  exact Nat.add_le_add_left hh _

/-- What a step on the lists of reserved blocks leaves. -/
theorem Unnoticed.setCommandFreeList {l : List Nat} {d : Dir} (hp : untold (some p) = 0)
    (hq : untold q = 0) (hh : handing q ≤ handing (some p)) :
    Unnoticed a p (setCommandFreeList a l d) q :=
  .of_live (setCommandFreeList_paused _ _ _) (setCommandFreeList_cbs _ _) hp hq
    (setCommandFreeList_live _ _) hh

/-- What a step on a counter leaves. -/
theorem Unnoticed.addDataAllocated {k : Int} {d : Dir} (hp : untold (some p) = 0)
    (hq : untold q = 0) (hh : handing q ≤ handing (some p)) :
    Unnoticed a p (addDataAllocated a k d) q :=
  .of_live (addDataAllocated_paused _ _) (addDataAllocated_cbs _ _) hp hq (addDataAllocated_live _ _) hh

theorem untold_noBlock (d : Dir) : untold (some (noBlock d)) = 0 := by
  cases d <;> rfl

theorem handing_noBlock (d : Dir) : handing (some (noBlock d)) = 0 := by
  cases d <;> rfl

/-- **What a step does to flow control**: the heap answers an allocation, the flag is set or cleared, the
callback is called, or nothing of this. -/
theorem advance_flow (h : advance c o a p = (b, q)) :
    Unnoticed a p b q ∨
    (p = .heapAlloc .tx ∧ o.heap ≠ 0 ∧ b = a ∧ q = some (.pauseCheck o.heap)) ∨
    (∃ pkt, p = .pauseSet pkt ∧ b = setTxDataPaused a true ∧
      q = some (if a.pktmem.txDataPaused then .ret (some ⟨pkt, .txData⟩) else .pauseCb pkt)) ∨
    (p = .unpauseSet ∧ b = setTxDataPaused a false ∧
      q = some (if a.pktmem.txDataPaused then .unpauseCb else .ret none)) ∨
    untold (some p) = 1 ∧ b = txFlowControlCb a ∧ untold q = 0 ∧ handing q = handing (some p) := by
  cases p with
  | poolTake d =>
    refine .inl ?_
    cases hl : commandFreeList a d with
    | nil =>
      simp only [advance, hl, Prod.mk.injEq] at h
      obtain ⟨rfl, rfl⟩ := h
      exact .of_live rfl rfl rfl (untold_noBlock d) rfl (Nat.le_of_eq (handing_noBlock d))
    | cons buf rest =>
      simp only [advance, hl, Prod.mk.injEq] at h
      obtain ⟨rfl, rfl⟩ := h
      exact .setCommandFreeList rfl rfl (Nat.le_refl 0)
  | poolInit d buf =>
    refine .inl ?_
    by_cases hf : o.fits = true
    · simp only [advance, if_pos hf, Prod.mk.injEq] at h
      obtain ⟨rfl, rfl⟩ := h
      exact .of_live rfl rfl rfl rfl rfl (by cases d <;> exact Nat.le_refl 0)
    · simp only [advance, if_neg hf, Prod.mk.injEq] at h
      obtain ⟨rfl, rfl⟩ := h
      exact .of_live rfl rfl rfl rfl rfl (Nat.le_refl 0)
  | poolBack d buf =>
    obtain ⟨rfl, rfl⟩ := Prod.mk.inj h
    exact .inl (.setCommandFreeList rfl (untold_noBlock d) (Nat.le_of_eq (handing_noBlock d)))
  | commandHeap =>
    obtain ⟨rfl, rfl⟩ := Prod.mk.inj h
    exact .inl (.of_live rfl rfl rfl rfl rfl (by split_ifs <;> exact Nat.le_refl 0))
  | fetchAdd d =>
    obtain ⟨rfl, rfl⟩ := Prod.mk.inj h
    exact .inl (.addDataAllocated rfl (by split_ifs <;> rfl) (by split_ifs <;> exact Nat.le_refl 0))
  | giveBack d =>
    obtain ⟨rfl, rfl⟩ := Prod.mk.inj h
    exact .inl (.addDataAllocated rfl rfl (Nat.le_refl 0))
  | heapAlloc d =>
    obtain ⟨rfl, rfl⟩ := Prod.mk.inj h
    by_cases h0 : o.heap = 0
    · rw [if_pos h0]
      exact .inl (.of_live rfl rfl rfl rfl rfl (Nat.le_refl 0))
    · rw [if_neg h0]
      cases d with
      | tx => exact .inr (.inl ⟨rfl, h0, rfl, rfl⟩)
      | rx => exact .inl (.of_live rfl rfl rfl rfl rfl (Nat.le_refl 0))
  | pauseCheck pkt =>
    obtain ⟨rfl, rfl⟩ := Prod.mk.inj h
    exact .inl (.of_live rfl rfl rfl (by split_ifs <;> rfl) rfl (by split_ifs <;> exact Nat.le_refl 1))
  | pauseSet pkt =>
    obtain ⟨rfl, rfl⟩ := Prod.mk.inj h
    exact .inr (.inr (.inl ⟨pkt, rfl, rfl, rfl⟩))
  | pauseCb pkt =>
    obtain ⟨rfl, rfl⟩ := Prod.mk.inj h
    exact .inr (.inr (.inr (.inr ⟨rfl, rfl, rfl, rfl⟩)))
  | commandFree d buf =>
    obtain ⟨rfl, rfl⟩ := Prod.mk.inj h
    exact .inl (.setCommandFreeList rfl rfl (Nat.le_refl 0))
  | fetchSub d pkt =>
    obtain ⟨rfl, rfl⟩ := Prod.mk.inj h
    exact .inl (.addDataAllocated rfl (by split_ifs <;> rfl) (by split_ifs <;> exact Nat.le_refl 0))
  | heapFree d pkt =>
    obtain ⟨rfl, rfl⟩ := Prod.mk.inj h
    exact .inl (.of_live rfl rfl rfl (by cases d <;> rfl) rfl (by cases d <;> exact Nat.le_refl 0))
  | unpauseCheck =>
    obtain ⟨rfl, rfl⟩ := Prod.mk.inj h
    exact .inl (.of_live rfl rfl rfl (by split_ifs <;> rfl) rfl (by split_ifs <;> exact Nat.le_refl 0))
  | unpauseSet =>
    obtain ⟨rfl, rfl⟩ := Prod.mk.inj h
    exact .inr (.inr (.inr (.inl ⟨rfl, rfl, rfl⟩)))
  | unpauseCb =>
    obtain ⟨rfl, rfl⟩ := Prod.mk.inj h
    exact .inr (.inr (.inr (.inr ⟨rfl, rfl, rfl, rfl⟩)))
  | ret pkt =>
    obtain ⟨rfl, rfl⟩ := Prod.mk.inj h
    refine .inl ⟨rfl, rfl, rfl, rfl, ?_⟩
    cases pkt with
    | none => exact Nat.le_refl _
    | some pkt =>
      by_cases hp : pkt.ops = .txData
      · simp [liveData, dataOps, handing, hp]
      · simp [liveData, dataOps, handing, hp]
  | asserted =>
    obtain ⟨rfl, rfl⟩ := Prod.mk.inj h
    exact .inl (.of_live rfl rfl rfl rfl rfl (Nat.le_refl 0))

/-! ## Once for each change -/

/-- **A step changes the state, calls the callback or does neither**, and after a change the callback is
next. -/
theorem advance_told (h : advance c o a p = (b, q)) :
    b.txFlowControlCbs + untold q = a.txFlowControlCbs + untold (some p) + stateChange a b := by
  obtain hn | ⟨rfl, -, rfl, rfl⟩ | ⟨pkt, rfl, rfl, rfl⟩ | ⟨rfl, rfl, rfl⟩ | ⟨hp, rfl, hq, -⟩ := advance_flow h
  · rw [stateChange_same hn.flag, hn.cbs, hn.untold_before, hn.untold_after]
  · exact congrArg _ (stateChange_same rfl).symm
  · unfold stateChange pktmemTxFlowControlState setTxDataPaused
    cases a.pktmem.txDataPaused <;> rfl
  · unfold stateChange pktmemTxFlowControlState setTxDataPaused
    cases a.pktmem.txDataPaused <;> rfl
  · have hsame : stateChange a (txFlowControlCb a) = 0 := stateChange_same rfl
    rw [hsame, hp, hq]
    rfl

theorem untold_start {k : Call} (h : startCall c a k = some (b, p)) : untold (some p) = 0 := by
  obtain ⟨-, cls, x, y, m, rfl⟩ | ⟨-, cls, n, m, rfl⟩ | ⟨pkt, -, -, rfl⟩ := startCall_cases h
  · unfold allocMmpktForTx
    split_ifs <;> rfl
  · unfold allocMmpktForRx
    split_ifs <;> rfl
  · unfold freeMmpkt
    split
    case h_4 => split_ifs <;> rfl
    all_goals rfl

theorem start_cbs {k : Call} (h : startCall c a k = some (b, p)) :
    b.txFlowControlCbs = a.txFlowControlCbs := by
  obtain ⟨rfl, -⟩ | ⟨rfl, -⟩ | ⟨pkt, -, rfl, -⟩ := startCall_cases h <;> rfl

/-! ## No allocation rises -/

theorem handing_start {k : Call} (h : startCall c a k = some (b, p)) :
    liveData .tx b + handing (some p) ≤ liveData .tx a := by
  obtain ⟨rfl, cls, x, y, m, rfl⟩ | ⟨rfl, cls, n, m, rfl⟩ | ⟨pkt, hp, rfl, rfl⟩ := startCall_cases h
  · unfold allocMmpktForTx
    split_ifs <;> exact Nat.le_refl _
  · unfold allocMmpktForRx
    split_ifs <;> exact Nat.le_refl _
  · have hsub : liveData .tx { a with live := a.live.erase pkt } ≤ liveData .tx a :=
      List.erase_sublist.countP_le
    have hzero : handing (some (freeMmpkt pkt)) = 0 := by
      unfold freeMmpkt
      split
      case h_4 => split_ifs <;> rfl
      all_goals rfl
    rw [hzero]
    exact hsub

/-- While no allocation rises, the state is READY, and at most all but two allocations are in use. -/
structure Below (c : Config) (s : Two State Pc) (q : Option Pc) : Prop where
  account : TxAccount s
  ready : s.shared.pktmem.txDataPaused = false
  packets : liveData .tx s.shared + handing q ≤ c.txBlocks - 2
  unset : ∀ pkt, q ≠ some (.pauseSet pkt)

/-- Below the last two allocations nothing sets the flag. -/
theorem Below.of_packets (ha : Alone s q) (hc : TxAccount s)
    (hr : s.shared.pktmem.txDataPaused = false) (hn : liveData .tx s.shared + handing q ≤ c.txBlocks - 2)
    (hset : ∀ pkt, q = some (.pauseSet pkt) → c.txPauseThreshold < s.shared.pktmem.txDataAllocated) :
    Below c s q := by
  refine ⟨hc, hr, hn, fun pkt hq => ?_⟩
  have hcount := hc.alone ha
  have hhigh := hset pkt hq
  have hthree := c.three_le
  subst hq
  simp only [owedCtx, Option.elim, owed, if_true, handing, Config.txPauseThreshold] at hcount hn hhigh
  omega

/-- **Every step that does not rise keeps the invariant.** -/
theorem Below.step (hs : Below c s q) (ha : Alone s q) (h : (pktProg c).Step s e t) (hc : Complete s e)
    (hrise : ¬ Rises c s e) : ∃ q', Alone t q' ∧ Below c t q' := by
  have hacc := hs.account.step h
  obtain ⟨rfl, x, k, p, rfl, hst, ht⟩ | ⟨x, o, p, q', rfl, rfl, hst, ht⟩ := ha.step h hc
  · refine ⟨_, ht, .of_packets ht hacc ?_ (Nat.le_trans (handing_start hst) hs.packets) fun pkt hp => ?_⟩
    · rw [start_pktmem hst]
      exact hs.ready
    · exact absurd (Option.some.inj hp) (start_ne_pauseSet hst pkt)
  · refine ⟨_, ht, ?_⟩
    have hset : ∀ pkt, q' = some (.pauseSet pkt) →
        c.txPauseThreshold < t.shared.pktmem.txDataAllocated := by
      rintro pkt rfl
      exact pauseSet_of_advance hst
    obtain hn | ⟨rfl, h0, hb, rfl⟩ | ⟨pkt, rfl, -, -⟩ | ⟨rfl, hb, rfl⟩ | ⟨hp, hb, -, hq⟩ := advance_flow hst
    · exact .of_packets ht hacc (hn.flag.trans hs.ready) (Nat.le_trans hn.packets hs.packets) hset
    · -- the heap answers: it is not the last but one allocation that is taken
      refine .of_packets ht hacc (hb ▸ hs.ready) ?_ hset
      have hpackets := hs.packets
      have hne : liveData .tx s.shared ≠ c.txBlocks - 2 := by
        intro hlive
        refine hrise ⟨?_, h0, hlive, pktmemTxFlowControlState_ready.mpr hs.ready⟩
        exact ha.imp And.left And.right
      rw [hb]
      simp only [handing] at hpackets ⊢
      omega
    · exact absurd rfl (hs.unset pkt)
    · refine .of_packets ht hacc (hb ▸ rfl) ?_ hset
      rw [hb, if_neg (Bool.eq_false_iff.mp hs.ready)]
      exact hs.packets
    · refine .of_packets ht hacc (hb ▸ hs.ready) ?_ hset
      rw [hb, hq]
      exact hs.packets

theorem Told.step (ha : Alone s q) (hs : Told (s, n)) (h : (pktProg c).Step s e t) (hc : Complete s e)
    (hm : m = n + stateChange s.shared t.shared) : (∃ q', Alone t q') ∧ Told (t, m) := by
  rw [told_alone ha] at hs
  obtain ⟨rfl, x, k, p, rfl, hst, ht⟩ | ⟨x, o, p, q', rfl, rfl, hst, ht⟩ := ha.step h hc
  · refine ⟨⟨_, ht⟩, (told_alone ht).mpr ?_⟩
    rw [hm, stateChange_same (congrArg (·.txDataPaused) (start_pktmem hst)), start_cbs hst,
      untold_start hst, ← hs]
    rfl
  · refine ⟨⟨_, ht⟩, (told_alone ht).mpr ?_⟩
    rw [advance_told hst, hm, ← hs]

/-! ## Every run -/

variable {txBlocks rxBlocks : List Nat} {tr : List (TwoEvent Call Outside)}

/-- **The callback is called once for each change, and at no other time.** -/
theorem told_run (h : Run (CountedStep c) (pktStart txBlocks rxBlocks, 0) tr x) :
    (∃ q, Alone x.1 q) ∧ Told x := by
  have h0 : Alone (pktStart txBlocks rxBlocks) none := .inl ⟨rfl, rfl⟩
  refine h.inv (I := fun x => (∃ q, Alone x.1 q) ∧ Told x) ⟨⟨none, h0⟩, (told_alone h0).mpr rfl⟩ ?_
  rintro ⟨s, n⟩ e ⟨t, m⟩ ⟨⟨q, ha⟩, hs⟩ ⟨hstep, hc, hm⟩
  exact Told.step ha hs hstep hc hm

theorem countedStep_det (x : Two State Pc × Nat) (e : TwoEvent Call Outside) (y z : Two State Pc × Nat)
    (h : CountedStep c x e y) (h' : CountedStep c x e z) : y = z := by
  obtain ⟨hs, -, hn⟩ := h
  obtain ⟨hs', -, hn'⟩ := h'
  have hst : y.1 = z.1 := hs.det hs'
  refine Prod.ext hst ?_
  rw [hn, hn', hst]

/-- A call under way takes its next step in a run that it does not outlast. -/
theorem Alone.next (ha : Alone x.1 (some p)) (h : Run (CountedStep c) x tr y) (hy : y.1.Quiescent) :
    ∃ i o q tr' z, tr = .step i o :: tr' ∧ CountedStep c x (.step i o) z ∧ Run (CountedStep c) z tr' y ∧
      advance c o x.1.shared p = (z.1.shared, q) ∧ Alone z.1 q := by
  cases tr with
  | nil =>
    obtain rfl := h.of_nil
    exact nomatch ha.quiescent hy
  | cons e tr =>
    obtain ⟨z, hz, htail⟩ := h.uncons
    obtain ⟨hq, -⟩ | ⟨i, o, p', q, hp, rfl, hst, ht⟩ := ha.step hz.1 hz.2.1
    · exact nomatch hq
    · obtain rfl := Option.some.inj hp
      exact ⟨i, o, q, tr, z, rfl, hz, htail, hst, ht⟩

/-- **An allocation that rises** hands out its packet in the state READY. -/
theorem rises_returns (hx : ∃ q, Alone x.1 q) (hacc : TxAccount x.1) (hr : Rises c x.1 e)
    (h : Run (CountedStep c) x (e :: tr) y) (hy : y.1.Quiescent) :
    ∃ tr₁ z, tr₁ <+: e :: tr ∧ Run (CountedStep c) x tr₁ z ∧ z.1.Quiescent ∧ ¬ PausedInTime c z.1.shared := by
  have hthree := c.three_le
  obtain ⟨q, ha⟩ := hx
  cases e with
  | call => exact hr.elim
  | step i o =>
    obtain ⟨hat, h0, hlive, hready⟩ := hr
    have hq : q = some (.heapAlloc .tx) := by
      obtain ⟨rfl, hi⟩ | ⟨ht, rfl⟩ := ha
      · refine hat.resolve_right fun h => ?_
        cases hi.symm.trans h
      · refine hat.resolve_left fun h => ?_
        cases ht.symm.trans h
    subst hq
    have hcount := hacc.alone ha
    -- the heap answers, the counter is not above the threshold, and the call returns
    obtain ⟨i, o, q, tr, y₁, he, hs₁, htail, hst, ha⟩ := ha.next h hy
    obtain ⟨hstep, rfl⟩ := List.cons.inj he
    obtain ⟨rfl, rfl⟩ := TwoEvent.step.inj hstep
    obtain ⟨hb, rfl⟩ := Prod.mk.inj hst
    rw [if_neg h0] at ha
    obtain ⟨i₂, o₂, q, tr, y₂, rfl, hs₂, htail, hst, ha⟩ := ha.next htail hy
    obtain ⟨hb₂, rfl⟩ := Prod.mk.inj hst
    have hle : ¬ c.txPauseThreshold < y₁.1.shared.pktmem.txDataAllocated := by
      rw [← hb]
      simp only [owedCtx, Option.elim, owed, if_true, Config.txPauseThreshold] at hcount ⊢
      omega
    rw [if_neg hle] at ha
    obtain ⟨i₃, o₃, q, tr, y₃, rfl, hs₃, htail, hst, ha⟩ := ha.next htail hy
    obtain ⟨hb₃, rfl⟩ := Prod.mk.inj hst
    refine ⟨[.step i o, .step i₂ o₂, .step i₃ o₃], y₃, ⟨tr, rfl⟩, .cons hs₁ (.cons hs₂ (.single hs₃)),
      ha.of_none, fun hpaused => ?_⟩
    have hone : liveData .tx y₃.1.shared = liveData .tx x.1.shared + 1 := by
      rw [← hb₃, ← hb₂, ← hb]
      exact List.countP_cons_of_pos rfl
    have hstate : pktmemTxFlowControlState y₃.1.shared = .ready := by
      rw [← hb₃, ← hb₂, ← hb]
      exact hready
    cases hstate.symm.trans (hpaused (by omega))

/-- **PAUSED in time, exactly where no allocation rises.** In a run of complete calls the callback is
called once for each change of the state and at no other time, and between the calls PAUSED is the state
wherever all but one of the allocations are in use, if and only if no allocation of the run rises. -/
theorem paused_in_time_iff (h : Run (CountedStep c) (pktStart txBlocks rxBlocks, 0) tr x)
    (hx : x.1.Quiescent) :
    (∀ tr₁ y, tr₁ <+: tr → Run (CountedStep c) (pktStart txBlocks rxBlocks, 0) tr₁ y →
      Told y ∧ (y.1.Quiescent → y.1.shared.txFlowControlCbs = y.2 ∧ PausedInTime c y.1.shared)) ↔
    ∀ tr₁ e y, tr₁ ++ [e] <+: tr → Run (CountedStep c) (pktStart txBlocks rxBlocks, 0) tr₁ y →
      ¬ Rises c y.1 e := by
  constructor
  · rintro hall tr₁ e y ⟨tr₂, rfl⟩ hy hr
    rw [List.append_assoc] at h hall
    obtain ⟨z, hz, hrest⟩ := h.split
    obtain rfl := hz.det countedStep_det hy
    have hacc : TxAccount z.1 := hz.inv (I := fun x => TxAccount x.1) (FlowInv.start (c := c) _ _).account
      fun _ _ _ hi hs => hi.step hs.1
    obtain ⟨tr₃, u, hpre, hu, hq, hnot⟩ := rises_returns (told_run hz).1 hacc hr hrest hx
    exact hnot ((hall _ u ((List.prefix_append_right_inj _).mpr hpre) (hz.trans hu)).2 hq).2
  · intro hrise tr₁ y hpre hy
    obtain ⟨⟨q, ha⟩, htold⟩ := told_run hy
    refine ⟨htold, fun hq => ⟨?_, fun hlive => ?_⟩⟩
    · have hnone := ha.quiescent hq
      subst hnone
      exact (told_alone ha).mp htold
    · have hbelow : ∃ q, Alone y.1 q ∧ Below c y.1 q := by
        refine hy.inv_trace (I := fun tr₂ x => tr₂ <+: tr → ∃ q, Alone x.1 q ∧ Below c x.1 q) ?_ ?_ hpre
        · exact fun _ => ⟨none, .inl ⟨rfl, rfl⟩,
            .of_packets (.inl ⟨rfl, rfl⟩) (FlowInv.start (c := c) _ _).account rfl (Nat.zero_le _) nofun⟩
        · rintro tr₂ y e z hy hi ⟨hstep, hc, -⟩ hpre
          obtain ⟨q, ha, hb⟩ := hi ((List.prefix_append _ _).trans hpre)
          exact hb.step ha hstep hc (hrise tr₂ e y hpre hy)
      obtain ⟨q, ha, hb⟩ := hbelow
      have hle := Nat.le_trans (Nat.le_add_right _ _) hb.packets
      have hthree := c.three_le
      omega

/-- The step as a function, to evaluate runs. -/
def countedExec (c : Config) (x : Two State Pc × Nat) (e : TwoEvent Call Outside) :
    Option (Two State Pc × Nat) :=
  match e, x.1.thread, x.1.irq with
  | .call .., some _, _ | .call .., _, some _ => none
  | _, _, _ => ((pktProg c).exec x.1 e).map fun t => (t, x.2 + stateChange x.1.shared t.shared)

theorem countedStep_of_exec (h : countedExec c x e = some y) : CountedStep c x e y := by
  have hstep : ∀ {o : Option (Two State Pc)}, (pktProg c).exec x.1 e = o → Complete x.1 e →
      (o.map fun t => (t, x.2 + stateChange x.1.shared t.shared)) = some y → CountedStep c x e y := by
    intro o ho hc h
    obtain ⟨t, rfl, rfl⟩ := Option.map_eq_some_iff.mp h
    exact ⟨Prog.step_of_exec ho, hc, rfl⟩
  obtain ⟨⟨a, thread, irq⟩, n⟩ := x
  cases e with
  | step => exact hstep rfl trivial (by cases thread <;> cases irq <;> exact h)
  | call =>
    cases thread with
    | some => exact nomatch h
    | none =>
      cases irq with
      | some => exact nomatch h
      | none => exact hstep rfl ⟨rfl, rfl⟩ h

/-- Two allocations by the thread. -/
def allocTwo : List (TwoEvent Call Outside) :=
  .call .thread (.allocTx .data 0 0 0) :: steps .thread ⟨0x100, true⟩ 4 ++
  .call .thread (.allocTx .data 0 0 0) :: steps .thread ⟨0x200, true⟩ 4

/-- The state after them: no change, and nothing told. -/
def readyTwo : Two State Pc × Nat :=
  (⟨⟨⟨2, false, 0, [], []⟩, [⟨0x200, .txData⟩, ⟨0x100, .txData⟩], 0⟩, none, none⟩, 0)

theorem run_readyTwo : Run (CountedStep threeBlocks) (pktStart [] [], 0) allocTwo readyTwo :=
  Run.ofFold (fun _ _ _ h => countedStep_of_exec h) rfl

theorem paused_in_time_iff_two :
    (∀ tr₁ y, tr₁ <+: allocTwo → Run (CountedStep threeBlocks) (pktStart [] [], 0) tr₁ y →
      Told y ∧ (y.1.Quiescent → y.1.shared.txFlowControlCbs = y.2 ∧ PausedInTime threeBlocks y.1.shared)) ↔
    ∀ tr₁ e y, tr₁ ++ [e] <+: allocTwo → Run (CountedStep threeBlocks) (pktStart [] [], 0) tr₁ y →
      ¬ Rises threeBlocks y.1 e :=
  paused_in_time_iff run_readyTwo ⟨rfl, rfl⟩

/-- **The second of three packets** leaves one allocation free and the state READY. -/
theorem two_of_three_ready :
    ¬ ∀ (c : Config) (txBlocks rxBlocks : List Nat) (tr : List (TwoEvent Call Outside))
      (x : Two State Pc × Nat), Run (CountedStep c) (pktStart txBlocks rxBlocks, 0) tr x →
      x.1.Quiescent → PausedInTime c x.1.shared := by
  intro h
  have hpaused := h threeBlocks [] [] allocTwo readyTwo run_readyTwo ⟨rfl, rfl⟩ (by decide)
  exact absurd hpaused (by decide)

end MmHalow.Pkt
