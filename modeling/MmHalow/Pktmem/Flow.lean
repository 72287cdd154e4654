import MmHalow.Pktmem.Model

/-!
# Transmit flow control under preemption

`tx_data_paused` is set by an allocation that read the counter above the pause threshold, and
cleared by a free that read it below the unpause threshold. The read and the exchange are two
steps, and an allocation that will fail is counted for a while. So frees in an interrupt may
bring the counter down while the thread is on its way to set the flag, or miss that it came down
because of the count a failing allocation has yet to give back.

* `flow_control_sticks`: with three blocks this leaves the state PAUSED with no packet live.
* `Timely`: the steps at which that happens, by the counter the thread finds there.
* `flow_control_released`: **in every run whose steps are timely, PAUSED in a quiescent state means
  at least `MM_HALOW_TX_BLOCKS - 2` live packets.** Interrupts may make any calls at any point.
* `flow_control_tight`: an untimely step can be followed by the end of the thread's call into a
  quiescent state that is PAUSED with fewer.
-/

namespace MmHalow.Pkt

open MmHalow.Lib

variable {c : Config} {s t : Two State Pc} {e : TwoEvent Call Outside}

/-- A free at `p` has still to compare the counter with the unpause threshold, or is about to
clear the flag. -/
def checks : Pc → Bool
  | .fetchSub .tx _ => true
  | .heapFree .tx _ => true
  | .unpauseCheck => true
  | .unpauseSet => true
  | _ => false

/-- What an allocation at `p` may have to give back. -/
def transient : Pc → Int
  | .giveBack .tx => 1
  | .heapAlloc .tx => 1
  | _ => 0

def checksCtx (p : Option Pc) : Bool := p.elim false checks

def transientCtx (p : Option Pc) : Int := p.elim 0 transient

/-- Where the thread's allocation sets the flag, the counter is not below the unpause threshold;
where it gives its count back, the flag is clear or the counter stays at the threshold without
that count. -/
def timelyAt (c : Config) (a : State) : Pc → Bool
  | .pauseSet _ => c.txUnpauseThreshold ≤ a.pktmem.txDataAllocated
  | .giveBack .tx => !a.pktmem.txDataPaused || c.txUnpauseThreshold ≤ a.pktmem.txDataAllocated - 1
  | _ => true

/-- **The condition on a step**: the thread's steps are timely; every other step is free. -/
def Timely (c : Config) (s : Two State Pc) : TwoEvent Call Outside → Prop
  | .step .thread _ => s.thread.all (timelyAt c s.shared) = true
  | _ => True

instance (s : Two State Pc) : (e : TwoEvent Call Outside) → Decidable (Timely c s e)
  | .call _ _ => inferInstanceAs (Decidable True)
  | .step .irq _ => inferInstanceAs (Decidable True)
  | .step .thread _ => inferInstanceAs (Decidable (_ = true))

/-- A step that meets the condition. -/
def TimelyStep (c : Config) (s : Two State Pc) (e : TwoEvent Call Outside) (t : Two State Pc) :
    Prop := (pktProg c).Step s e t ∧ Timely c s e

/-- The counter is the live packets and what the two contexts owe. -/
def TxAccount (s : Two State Pc) : Prop :=
  s.shared.pktmem.txDataAllocated =
    liveData .tx s.shared + owedCtx .tx s.thread + owedCtx .tx s.irq

/-- What the flag allows at `p`: the counter, less `k` times what may be given back, is at the
threshold, or `B` holds, or a check is still to come. -/
def Allowed (c : Config) (k : Int) (B : Prop) (a : State) (p : Option Pc) : Prop :=
  a.pktmem.txDataPaused = true →
    c.txUnpauseThreshold ≤ a.pktmem.txDataAllocated - k * transientCtx p ∨ B ∨ checksCtx p = true

/-- PAUSED only while the counter, less what the interrupt may give back, is at the unpause
threshold, or a free has still to look. An interrupt about to pause finds the counter high. -/
structure FlowInv (c : Config) (s : Two State Pc) : Prop where
  account : TxAccount s
  paused : Allowed c 1 (checksCtx s.thread = true) s.shared s.irq
  high : ∀ pkt, s.irq = some (.pauseSet pkt) →
    c.txPauseThreshold < s.shared.pktmem.txDataAllocated

theorem TxAccount.step (hs : TxAccount s) (h : (pktProg c).Step s e t) : TxAccount t := by
  refine h.inv hs ?_ ?_ ?_ ?_
  · intro a b k p hst hi
    have hacc : b.pktmem.txDataAllocated - liveData .tx b - owed .tx p =
        a.pktmem.txDataAllocated - liveData .tx a :=
      start_account (d := .tx) hst nofun
    simp only [TxAccount, owedCtx, Option.elim] at hi ⊢
    omega
  · intro a b u k p hst hi
    have hacc : b.pktmem.txDataAllocated - liveData .tx b - owed .tx p =
        a.pktmem.txDataAllocated - liveData .tx a :=
      start_account (d := .tx) hst nofun
    simp only [TxAccount, owedCtx, Option.elim] at hi ⊢
    omega
  · intro a b p q o hst _ hi
    have hacc : b.pktmem.txDataAllocated - liveData .tx b - owedCtx .tx q =
        a.pktmem.txDataAllocated - liveData .tx a - owed .tx p :=
      advance_account (d := .tx) hst
    simp only [TxAccount, owedCtx, Option.elim] at hacc hi ⊢
    omega
  · intro a b u p q o hst hi
    have hacc : b.pktmem.txDataAllocated - liveData .tx b - owedCtx .tx q =
        a.pktmem.txDataAllocated - liveData .tx a - owed .tx p :=
      advance_account (d := .tx) hst
    simp only [TxAccount, owedCtx, Option.elim] at hacc hi ⊢
    omega

/-! ## The flag -/

theorem transient_noBlock (d : Dir) : transient (noBlock d) = 0 := by
  cases d <;> rfl

@[simp] theorem setCommandFreeList_paused (a : State) (l : List Nat) (d : Dir) :
    (setCommandFreeList a l d).pktmem.txDataPaused = a.pktmem.txDataPaused := by
  cases d <;> rfl

variable {k : Int} {B : Prop} {a b : State} {p : Pc} {q : Option Pc} {o : Outside}

/-- A step that touches neither the counter nor the flag, at a place with no check to come. -/
theorem Allowed.quiet (hs : Allowed c k B a (some p)) (hk : 0 ≤ k)
    (hf : b.pktmem.txDataPaused = a.pktmem.txDataPaused)
    (hc : b.pktmem.txDataAllocated = a.pktmem.txDataAllocated) (hp : checks p = false)
    (hq : transientCtx q ≤ transient p) : Allowed c k B b q := by
  intro h
  rw [hf] at h
  rw [hc]
  rcases hs h with h | h | h
  · have := Int.mul_le_mul_of_nonneg_left hq hk
    exact Or.inl (by simp only [transientCtx, Option.elim] at this h ⊢; omega)
  · exact Or.inr (Or.inl h)
  · exact absurd h (by simp [checksCtx, hp])

/-- **One step and the flag**: where a step that sets the flag finds the counter at the threshold,
and one that gives a count back does not take it below. -/
theorem Allowed.advance (hk0 : 0 ≤ k) (hk1 : k ≤ 1) (h : advance c o a p = (b, q))
    (hpos : ∀ pkt, p = .fetchSub .tx pkt → 0 < a.pktmem.txDataAllocated)
    (hset : ∀ pkt, p = .pauseSet pkt → c.txUnpauseThreshold ≤ a.pktmem.txDataAllocated)
    (hgive : p = .giveBack .tx → a.pktmem.txDataPaused = true →
      c.txUnpauseThreshold ≤ a.pktmem.txDataAllocated - 1 ∨ B)
    (hs : Allowed c k B a (some p)) : Allowed c k B b q := by
  cases p with
  | poolTake d =>
    cases hl : commandFreeList a d with
    | nil =>
      simp only [Pkt.advance, hl, Prod.mk.injEq] at h
      obtain ⟨rfl, rfl⟩ := h
      exact hs.quiet hk0 rfl rfl rfl (Int.le_of_eq (transient_noBlock d))
    | cons buf rest =>
      simp only [Pkt.advance, hl, Prod.mk.injEq] at h
      obtain ⟨rfl, rfl⟩ := h
      exact hs.quiet hk0 (setCommandFreeList_paused _ _ _) (setCommandFreeList_allocated _ _) rfl
        (Int.le_refl 0)
  | poolInit d buf =>
    by_cases hf : o.fits = true
    · simp only [Pkt.advance, if_pos hf, Prod.mk.injEq] at h
      obtain ⟨rfl, rfl⟩ := h
      exact hs.quiet hk0 rfl rfl rfl (Int.le_refl 0)
    · simp only [Pkt.advance, if_neg hf, Prod.mk.injEq] at h
      obtain ⟨rfl, rfl⟩ := h
      exact hs.quiet hk0 rfl rfl rfl (Int.le_refl 0)
  | poolBack d buf =>
    obtain ⟨rfl, rfl⟩ := Prod.mk.inj h
    exact hs.quiet hk0 (setCommandFreeList_paused _ _ _) (setCommandFreeList_allocated _ _) rfl
      (Int.le_of_eq (transient_noBlock d))
  | commandHeap =>
    obtain ⟨rfl, rfl⟩ := Prod.mk.inj h
    exact hs.quiet hk0 rfl rfl rfl (Int.le_refl 0)
  | fetchAdd d =>
    obtain ⟨rfl, rfl⟩ := Prod.mk.inj h
    cases d with
    | tx =>
      intro hp
      rcases hs hp with h | h | h
      · left
        have : transientCtx (some (if c.blocks .tx ≤ dataAllocated a .tx then Pc.giveBack .tx
            else .heapAlloc .tx)) = 1 := by
          split_ifs <;> rfl
        rw [this]
        simp only [addDataAllocated, transientCtx, Option.elim, transient] at h ⊢
        omega
      · exact Or.inr (Or.inl h)
      · exact absurd h Bool.noConfusion
    | rx =>
      refine hs.quiet hk0 rfl rfl rfl ?_
      split_ifs <;> exact Int.le_refl 0
  | giveBack d =>
    obtain ⟨rfl, rfl⟩ := Prod.mk.inj h
    cases d with
    | tx =>
      intro hp
      rcases hgive rfl hp with h | h
      · left
        simp only [addDataAllocated, transientCtx, Option.elim, transient]
        omega
      · exact Or.inr (Or.inl h)
    | rx => exact hs.quiet hk0 rfl rfl rfl (Int.le_refl 0)
  | heapAlloc d =>
    obtain ⟨rfl, rfl⟩ := Prod.mk.inj h
    refine hs.quiet hk0 rfl rfl (by cases d <;> rfl) ?_
    by_cases h0 : o.heap = 0
    · rw [if_pos h0]
      cases d <;> exact Int.le_refl _
    · rw [if_neg h0]
      cases d with
      | tx => exact Int.zero_le_ofNat 1
      | rx => exact Int.le_refl 0
  | pauseCheck pkt =>
    obtain ⟨rfl, rfl⟩ := Prod.mk.inj h
    refine hs.quiet hk0 rfl rfl rfl ?_
    split_ifs <;> exact Int.le_refl 0
  | pauseSet pkt =>
    obtain ⟨rfl, rfl⟩ := Prod.mk.inj h
    intro _
    have := hset pkt rfl
    left
    have h0 : transientCtx (some (if a.pktmem.txDataPaused = true then Pc.ret (some ⟨pkt, .txData⟩)
        else .pauseCb pkt)) = 0 := by
      split_ifs <;> rfl
    rw [h0]
    simp only [setTxDataPaused]
    omega
  | pauseCb pkt =>
    obtain ⟨rfl, rfl⟩ := Prod.mk.inj h
    exact hs.quiet hk0 rfl rfl rfl (Int.le_refl 0)
  | commandFree d buf =>
    obtain ⟨rfl, rfl⟩ := Prod.mk.inj h
    exact hs.quiet hk0 (setCommandFreeList_paused _ _ _) (setCommandFreeList_allocated _ _)
      rfl (Int.le_refl 0)
  | fetchSub d pkt =>
    obtain ⟨rfl, rfl⟩ := Prod.mk.inj h
    cases d with
    | tx =>
      -- the assertion holds, and the free goes on to its check
      intro _
      rw [if_neg fun h => h.2 (hpos pkt rfl)]
      exact Or.inr (Or.inr rfl)
    | rx => exact hs.quiet hk0 rfl rfl rfl (Int.le_refl 0)
  | heapFree d pkt =>
    obtain ⟨rfl, rfl⟩ := Prod.mk.inj h
    cases d with
    | tx => exact fun _ => Or.inr (Or.inr rfl)
    | rx => exact hs.quiet hk0 rfl rfl rfl (Int.le_refl 0)
  | unpauseCheck =>
    obtain ⟨rfl, rfl⟩ := Prod.mk.inj h
    intro _
    by_cases hlow : a.pktmem.txDataAllocated < c.txUnpauseThreshold
    · rw [if_pos hlow]
      exact Or.inr (Or.inr rfl)
    · rw [if_neg hlow]
      left
      simp only [transientCtx, Option.elim, transient]
      omega
  | unpauseSet =>
    obtain ⟨rfl, rfl⟩ := Prod.mk.inj h
    exact fun h => absurd h Bool.noConfusion
  | unpauseCb =>
    obtain ⟨rfl, rfl⟩ := Prod.mk.inj h
    exact hs.quiet hk0 rfl rfl rfl (Int.le_refl 0)
  | ret pkt =>
    obtain ⟨rfl, rfl⟩ := Prod.mk.inj h
    exact hs.quiet hk0 rfl rfl rfl (Int.le_refl 0)
  | asserted =>
    obtain ⟨rfl, rfl⟩ := Prod.mk.inj h
    exact hs.quiet hk0 rfl rfl rfl (Int.le_refl 0)

theorem transient_start {k : Call} (h : startCall c a k = some (b, p)) : transient p = 0 := by
  obtain ⟨-, cls, x, y, m, rfl⟩ | ⟨-, cls, n, m, rfl⟩ | ⟨pkt, -, -, rfl⟩ := startCall_cases h
  · unfold allocMmpktForTx
    split_ifs <;> rfl
  · unfold allocMmpktForRx
    split_ifs <;> rfl
  · unfold freeMmpkt
    split
    case h_4 => split_ifs <;> rfl
    all_goals rfl

theorem start_pktmem {k : Call} (h : startCall c a k = some (b, p)) : b.pktmem = a.pktmem := by
  obtain ⟨rfl, -⟩ | ⟨rfl, -⟩ | ⟨pkt, -, rfl, -⟩ := startCall_cases h <;> rfl

/-- No call begins by setting the flag. -/
theorem start_ne_pauseSet {k : Call} (h : startCall c a k = some (b, p)) (pkt : Nat) :
    p ≠ .pauseSet pkt := by
  obtain ⟨-, cls, x, y, m, rfl⟩ | ⟨-, cls, n, m, rfl⟩ | ⟨pkt, -, -, rfl⟩ := startCall_cases h
  · unfold allocMmpktForTx
    split_ifs <;> exact Pc.noConfusion
  · unfold allocMmpktForRx
    split_ifs <;> exact Pc.noConfusion
  · unfold freeMmpkt
    split
    case h_4 => split_ifs <;> exact Pc.noConfusion
    all_goals exact Pc.noConfusion

/-- Only a check of the counter leads to setting the flag. -/
theorem pauseSet_of_advance {pkt : Nat} (h : advance c o a p = (b, some (.pauseSet pkt))) :
    c.txPauseThreshold < b.pktmem.txDataAllocated := by
  have hq := congrArg Prod.snd h
  cases p with
  | pauseCheck pkt' =>
    obtain ⟨rfl, hpc⟩ := Prod.mk.inj h
    by_cases hhigh : c.txPauseThreshold < a.pktmem.txDataAllocated
    · exact hhigh
    · rw [if_neg hhigh] at hpc
      exact Pc.noConfusion (Option.some.inj hpc)
  | poolTake d =>
    cases hl : commandFreeList a d <;> cases d <;> simp [Pkt.advance, hl, noBlock] at hq
  | poolInit d buf =>
    by_cases hf : o.fits = true <;> simp [Pkt.advance, hf] at hq
  | poolBack d buf => cases d <;> simp [Pkt.advance, noBlock] at hq
  | fetchAdd d => by_cases hfull : c.blocks d ≤ dataAllocated a d <;> simp [Pkt.advance, hfull] at hq
  | heapAlloc d => by_cases h0 : o.heap = 0 <;> cases d <;> simp [Pkt.advance, h0] at hq
  | pauseSet pkt' => by_cases hp : a.pktmem.txDataPaused = true <;> simp [Pkt.advance, hp] at hq
  | fetchSub d pkt' =>
    by_cases hd : d = .tx ∧ ¬ 0 < dataAllocated a d
    · simp only [Pkt.advance, if_pos hd] at hq
      exact Pc.noConfusion (Option.some.inj hq)
    · simp only [Pkt.advance, if_neg hd] at hq
      exact Pc.noConfusion (Option.some.inj hq)
  | heapFree d pkt' => cases d <;> simp [Pkt.advance] at hq
  | unpauseCheck =>
    by_cases hl : a.pktmem.txDataAllocated < c.txUnpauseThreshold <;> simp [Pkt.advance, hl] at hq
  | unpauseSet => by_cases hp : a.pktmem.txDataPaused = true <;> simp [Pkt.advance, hp] at hq
  | _ => simp [Pkt.advance] at hq

/-- A call that begins leaves what the flag allows. -/
theorem Allowed.start {k : Call} (h : startCall c a k = some (b, p)) (hs : Allowed c 1 B a none) :
    Allowed c 1 B b (some p) := by
  intro hp
  rw [start_pktmem h] at hp ⊢
  rcases hs hp with h' | h' | h'
  · left
    simpa [transientCtx, transient_start h] using h'
  · exact Or.inr (Or.inl h')
  · exact absurd h' Bool.noConfusion

/-- The counter a free is about to take one from is positive. -/
theorem TxAccount.pos {pkt : Nat} (h : TxAccount s)
    (hp : s.thread = some (.fetchSub .tx pkt) ∨ s.irq = some (.fetchSub .tx pkt)) :
    0 < s.shared.pktmem.txDataAllocated := by
  have h1 := owedCtx_nonneg .tx s.thread
  have h2 := owedCtx_nonneg .tx s.irq
  unfold TxAccount at h
  rcases hp with hp | hp
  · have : owedCtx .tx s.thread = 1 := by rw [hp]; rfl
    omega
  · have : owedCtx .tx s.irq = 1 := by rw [hp]; rfl
    omega

/-- **Every timely step keeps the invariant.** -/
theorem FlowInv.step (hs : FlowInv c s) (h : TimelyStep c s e t) : FlowInv c t := by
  obtain ⟨hstep, htime⟩ := h
  have hacc := hs.account.step hstep
  cases hstep with
  | @threadCall a b k p hst =>
    refine ⟨hacc, fun hp => ?_, fun _ h => nomatch h⟩
    rw [start_pktmem hst] at hp ⊢
    exact (hs.paused hp).imp_right fun h => h.elim (fun h => nomatch h) fun h => nomatch h
  | @irqCall a b u k p hst =>
    exact ⟨hacc, hs.paused.start hst, fun pkt h => absurd (Option.some.inj h)
      (start_ne_pauseSet hst pkt)⟩
  | @threadStep a b p q o hst =>
    have hnext : Allowed c 0 False b q := by
      refine Allowed.advance (Int.le_refl 0) Int.one_nonneg hst ?_ ?_ ?_ ?_
      · rintro pkt rfl
        exact hs.account.pos (Or.inl rfl)
      · rintro pkt rfl
        simpa [Timely, timelyAt] using htime
      · rintro rfl hp
        simpa [Timely, timelyAt, show a.pktmem.txDataPaused = true from hp] using htime
      · intro hp
        rcases hs.paused hp with h | h | h
        · left
          simpa [transientCtx] using h
        · exact Or.inr (Or.inr h)
        · exact nomatch h
    refine ⟨hacc, fun hp => ?_, fun _ h => nomatch h⟩
    rcases hnext hp with h | h | h
    · left
      simpa [transientCtx] using h
    · exact h.elim
    · exact Or.inr (Or.inl h)
  | @irqStep a b u p q o hst =>
    refine ⟨hacc, ?_, ?_⟩
    · refine Allowed.advance Int.one_nonneg (Int.le_refl 1) hst ?_ ?_ ?_ hs.paused
      · rintro pkt rfl
        exact hs.account.pos (Or.inr rfl)
      · rintro pkt rfl
        have := hs.high pkt rfl
        simp only [Config.txPauseThreshold, Config.txUnpauseThreshold] at this ⊢
        omega
      · rintro rfl hp
        rcases hs.paused hp with h | h | h
        · left
          simpa [transientCtx, transient] using h
        · exact Or.inr h
        · exact nomatch h
    · rintro pkt rfl
      exact pauseSet_of_advance hst

theorem FlowInv.start (txBlocks rxBlocks : List Nat) : FlowInv c (pktStart txBlocks rxBlocks) :=
  ⟨rfl, fun h => Bool.noConfusion h, fun _ h => nomatch h⟩

/-- **Transmit flow control is released.** In every run of allocations and frees in the two
contexts whose steps are timely, whenever neither is inside a call, PAUSED means that at least
`MM_HALOW_TX_BLOCKS - 2` transmit data packets are live. -/
theorem flow_control_released {txBlocks rxBlocks : List Nat} {tr : List (TwoEvent Call Outside)}
    (h : Run (TimelyStep c) (pktStart txBlocks rxBlocks) tr t) (hq : t.Quiescent)
    (hp : t.shared.pktmem.txDataPaused = true) : c.txBlocks - 2 ≤ liveData .tx t.shared := by
  have hi : FlowInv c t := h.inv (FlowInv.start txBlocks rxBlocks) fun _ _ _ hi hs => hi.step hs
  have hacc := hi.account
  unfold TxAccount at hacc
  rw [hq.1, hq.2] at hacc
  have hu := hi.paused hp
  rw [hq.1, hq.2] at hu
  rcases hu with h | h | h
  · simp only [Config.txUnpauseThreshold, transientCtx, owedCtx, Option.elim] at h hacc
    omega
  · cases h
  · cases h

/-- A call of the thread that is about to return does, and then the counter is the live packets. -/
theorem TxAccount.ret {r : Option Packet} (h : TxAccount ⟨a, some (.ret r), none⟩) (o : Outside) :
    ∃ u, (pktProg c).Step ⟨a, some (.ret r), none⟩ (.step .thread o) u ∧ u.Quiescent ∧
      u.shared.pktmem = a.pktmem ∧ (liveData .tx u.shared : Int) = a.pktmem.txDataAllocated := by
  have hstep : (pktProg c).Step ⟨a, some (.ret r), none⟩ (.step .thread o)
      ⟨{ a with live := r.toList ++ a.live }, none, none⟩ := .threadStep rfl
  refine ⟨_, hstep, ⟨rfl, rfl⟩, rfl, ?_⟩
  have hacc : a.pktmem.txDataAllocated =
      liveData .tx { a with live := r.toList ++ a.live } + 0 + 0 := h.step hstep
  rw [hacc, Int.add_zero, Int.add_zero]

/-- **The condition is exact**: after an untimely step of a run, the thread's call can end in a
quiescent state that is PAUSED with fewer live packets. -/
theorem flow_control_tight {txBlocks rxBlocks : List Nat} {tr : List (TwoEvent Call Outside)}
    (h : Run (pktProg c).Step (pktStart txBlocks rxBlocks) tr s) (hs : (pktProg c).Step s e t)
    (he : ¬ Timely c s e) : ∃ tr' u, Run (pktProg c).Step t tr' u ∧ u.Quiescent ∧
      u.shared.pktmem.txDataPaused = true ∧ liveData .tx u.shared < c.txBlocks - 2 := by
  have hacc : TxAccount t :=
    (h.snoc hs).inv (I := TxAccount) (FlowInv.start (c := c) _ _).account fun _ _ _ hi hs => hi.step hs
  have hc := c.three_le
  cases hs with
  | threadCall => exact absurd trivial he
  | irqCall => exact absurd trivial he
  | irqStep => exact absurd trivial he
  | @threadStep a b p q o hst =>
    simp only [Timely, Option.all_some] at he
    cases p with
    | giveBack d =>
      cases d with
      | rx => exact absurd rfl he
      | tx =>
        obtain ⟨rfl, rfl⟩ := Prod.mk.inj hst
        simp only [timelyAt, Bool.or_eq_true, Bool.not_eq_true', not_or, Bool.not_eq_false] at he
        have hlow := of_decide_eq_false (Bool.eq_false_iff.mpr he.2)
        simp only [Config.txUnpauseThreshold] at hlow
        obtain ⟨u, hu, hq, hm, hl⟩ := hacc.ret o
        refine ⟨_, u, Run.single hu, hq, hm ▸ he.1, ?_⟩
        simp only [addDataAllocated] at hl
        omega
    | pauseSet pkt =>
      obtain ⟨rfl, rfl⟩ := Prod.mk.inj hst
      replace he := of_decide_eq_false (Bool.eq_false_iff.mpr he)
      simp only [Config.txUnpauseThreshold] at he
      by_cases hp : a.pktmem.txDataPaused = true
      · rw [if_pos hp] at hacc ⊢
        obtain ⟨u, hu, hq, hm, hl⟩ := hacc.ret o
        refine ⟨_, u, Run.single hu, hq, hm ▸ rfl, ?_⟩
        simp only [setTxDataPaused] at hl
        omega
      · rw [if_neg hp] at hacc ⊢
        have hcb : (pktProg c).Step ⟨setTxDataPaused a true, some (.pauseCb pkt), none⟩
            (.step .thread o)
            ⟨txFlowControlCb (setTxDataPaused a true), some (.ret (some ⟨pkt, .txData⟩)), none⟩ :=
          .threadStep rfl
        obtain ⟨u, hu, hq, hm, hl⟩ := (hacc.step hcb).ret (c := c) o
        refine ⟨_, u, (Run.single hcb).snoc hu, hq, hm ▸ rfl, ?_⟩
        simp only [txFlowControlCb, setTxDataPaused] at hl
        omega
    | _ => exact absurd rfl he

/-- Steps of a context that get the answer `o` from outside. -/
def steps (x : Ctx) (o : Outside) (n : Nat) : List (TwoEvent Call Outside) :=
  List.replicate n (.step x o)

/-- Three allocations by the thread, the last of which pauses. -/
def allocThree : List (TwoEvent Call Outside) :=
  .call .thread (.allocTx .data 0 0 0) :: steps .thread ⟨0x100, true⟩ 4 ++
  .call .thread (.allocTx .data 0 0 0) :: steps .thread ⟨0x200, true⟩ 4 ++
  .call .thread (.allocTx .data 0 0 0) :: steps .thread ⟨0x300, true⟩ 6

/-- A fourth allocation is refused, and before it gives its count back an interrupt frees the
three packets. -/
def freeThree : List (TwoEvent Call Outside) :=
  .call .thread (.allocTx .data 0 0 0) :: steps .thread ⟨0, true⟩ 1 ++
  .call .irq (.free ⟨0x100, .txData⟩) :: steps .irq ⟨0, true⟩ 4 ++
  .call .irq (.free ⟨0x200, .txData⟩) :: steps .irq ⟨0, true⟩ 4 ++
  .call .irq (.free ⟨0x300, .txData⟩) :: steps .irq ⟨0, true⟩ 4 ++
  steps .thread ⟨0, true⟩ 2

/-- A timely run by evaluation. -/
theorem timely_of_fold {tr : List (TwoEvent Call Outside)}
    (h : tr.foldlM (fun s e => if Timely c s e then (pktProg c).exec s e else none) s = some t) :
    Run (TimelyStep c) s tr t := by
  refine Run.ofFold (fun s e t h => ?_) h
  by_cases ht : Timely c s e
  · rw [if_pos ht] at h
    exact ⟨Prog.step_of_exec h, ht⟩
  · rw [if_neg ht] at h
    exact nomatch h

/-- The state after three allocations. -/
def pausedThree : Two State Pc :=
  ⟨⟨⟨3, true, 0, [], []⟩, [⟨0x300, .txData⟩, ⟨0x200, .txData⟩, ⟨0x100, .txData⟩], 1⟩, none, none⟩

/-- Three live packets and the flag set. -/
theorem flow_control_released_three : 3 - 2 ≤ liveData .tx pausedThree.shared :=
  have h : Run (TimelyStep threeBlocks) (pktStart [] []) allocThree pausedThree := timely_of_fold rfl
  flow_control_released h ⟨rfl, rfl⟩ rfl

/-- The state in which the frees went by unseen: PAUSED, and nothing is live. -/
theorem flow_control_sticks :
    ¬ ∀ (c : Config) (txBlocks rxBlocks : List Nat) (tr : List (TwoEvent Call Outside))
      (t : Two State Pc), Run (pktProg c).Step (pktStart txBlocks rxBlocks) tr t → t.Quiescent →
      t.shared.pktmem.txDataPaused = true → c.txBlocks - 2 ≤ liveData .tx t.shared := by
  intro h
  have hrun : Run (pktProg threeBlocks).Step (pktStart [] []) (allocThree ++ freeThree)
      ⟨⟨⟨0, true, 0, [], []⟩, [], 1⟩, none, none⟩ :=
    Run.ofFold (fun _ _ _ h => Prog.step_of_exec h) rfl
  exact absurd (h _ _ _ _ _ hrun ⟨rfl, rfl⟩ rfl) (by decide)

end MmHalow.Pkt
