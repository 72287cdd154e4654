import MmHalow.Pktmem.Model
import Mathlib.Algebra.Order.BigOperators.Group.List
import Mathlib.Algebra.Order.Ring.Int

/-!
# Packet accounting within a session

Any number of allocations and frees are in progress at once, and each may take the next step
(`Prog.AnyStep`), so that an interrupt, tasks and the thread may expose every transient value of the
counters to each other. A call in progress carries what it has done to the counters itself (`Active`).

* `Accounts.step`: every step keeps a counter equal to the live packets and what the calls under way
  owe it, and the packets let through below the size of the pool.
* `packets_accounted`: **no more counted packets are live than the pool has blocks; where no call is
  in progress a counter is the number of its live packets; an allocation that fails has changed no
  counter; and the assertion of `mm_halow_tx_data_free` holds.**
-/

namespace MmHalow.Pkt

open MmHalow.Lib

/-! ## Calls that keep count of themselves -/

/-- A call in progress: what it was, where it stands, and the sum of the changes that its own steps
have made to each counter. -/
structure Active where
  call : Call
  pc : Pc
  net : Dir → Int

/-- The calls on packet memory, with what they change. -/
def activeProg (c : Config) : Prog State Active Call Outside where
  start := fun _ s k => (startCall c s k).map fun r => (r.1, ⟨k, r.2, fun _ => 0⟩)
  next := fun _ s x o =>
    ((advance c o s x.pc).1, (advance c o s x.pc).2.map fun p =>
      ⟨x.call, p, fun d => x.net d + (dataAllocated (advance c o s x.pc).1 d - dataAllocated s d)⟩)

/-- The call is an allocation. -/
def Call.isAlloc : Call → Bool
  | free _ => false
  | _ => true

/-- What a call has taken from the live packets of `d` by beginning. -/
def debt (d : Dir) : Call → Int
  | .free pkt => if pkt.ops = dataOps d then 1 else 0
  | _ => 0

/-- The packets that a call at `p` has been let through to take from the heap. -/
def held (d : Dir) : Pc → Int
  | .heapAlloc d' => if d' = d then 1 else 0
  | .pauseCheck _ => if d = .tx then 1 else 0
  | .pauseSet _ => if d = .tx then 1 else 0
  | .pauseCb _ => if d = .tx then 1 else 0
  | .ret (some p) => if p.ops = dataOps d then 1 else 0
  | _ => 0

/-- The same of a call that may have returned. -/
def heldCtx (d : Dir) (q : Option Pc) : Int := q.elim 0 (held d)

variable {c : Config} {o : Outside} {s t : State} {p p' : Pc} {q : Option Pc} {d : Dir}

theorem held_le_owed (d : Dir) (p : Pc) : held d p ≤ owed d p := by
  cases p with
  | ret pkt => cases pkt <;> exact Int.le_refl _
  | giveBack d' => exact owed_nonneg d (.giveBack d')
  | fetchSub d' pkt => exact owed_nonneg d (.fetchSub d' pkt)
  | _ => exact Int.le_refl _

theorem held_noBlock (d' : Dir) : held d (noBlock d') = 0 := by
  cases d' <;> rfl

/-! ## What a step does -/

/-- Only a return touches the live packets. -/
theorem advance_live (h : advance c o s p = (t, some p')) : t.live = s.live := by
  cases p with
  | poolTake d =>
    simp only [advance] at h
    split at h
    all_goals
      obtain ⟨rfl, -⟩ := Prod.mk.inj h
      simp
  | poolInit d buf =>
    simp only [advance] at h
    split at h
    all_goals
      obtain ⟨rfl, -⟩ := Prod.mk.inj h
      rfl
  | ret pkt => cases congrArg Prod.snd h
  | _ =>
    obtain ⟨rfl, -⟩ := Prod.mk.inj h
    first | rfl | exact setCommandFreeList_live _ _ | exact addDataAllocated_live _ _

/-- A packet is handed out by a return. -/
theorem advance_none (h : advance c o s p = (t, none)) :
    ∃ pkt, p = .ret pkt ∧ t.live = pkt.toList ++ s.live := by
  cases p with
  | ret pkt =>
    obtain ⟨rfl, -⟩ := Prod.mk.inj h
    exact ⟨pkt, rfl, rfl⟩
  | poolTake d =>
    simp only [advance] at h
    split at h <;> cases congrArg Prod.snd h
  | poolInit d buf =>
    simp only [advance] at h
    split at h <;> cases congrArg Prod.snd h
  | _ => cases congrArg Prod.snd h

/-- **No packet is taken from the heap beyond the pool**: a step lets one more through only where the
counter shows room. -/
theorem advance_held (h : advance c o s p = (t, q)) :
    (liveData d t : Int) + heldCtx d q ≤ liveData d s + held d p ∨
      p = .fetchAdd d ∧ dataAllocated s d < c.blocks d ∧
        (liveData d t : Int) + heldCtx d q = liveData d s + 1 := by
  cases p with
  | fetchAdd d' =>
    obtain ⟨rfl, rfl⟩ := Prod.mk.inj h
    rw [liveData_congr (addDataAllocated_live _ _)]
    by_cases hfull : c.blocks d' ≤ dataAllocated s d'
    · rw [if_pos hfull]
      exact .inl (Int.le_refl _)
    · rw [if_neg hfull]
      by_cases hd : d' = d
      · subst hd
        exact .inr ⟨rfl, Int.not_le.mp hfull, by simp [heldCtx, held]⟩
      · exact .inl (by simp [heldCtx, held, hd])
  | poolTake d' =>
    left
    cases hl : commandFreeList s d' with
    | nil =>
      simp only [advance, hl, Prod.mk.injEq] at h
      obtain ⟨rfl, rfl⟩ := h
      exact Int.le_of_eq (congrArg _ (held_noBlock d'))
    | cons buf rest =>
      simp only [advance, hl, Prod.mk.injEq] at h
      obtain ⟨rfl, rfl⟩ := h
      rw [liveData_congr (setCommandFreeList_live _ _)]
      exact Int.le_refl _
  | poolInit d' buf =>
    left
    by_cases hf : o.fits = true
    · simp only [advance, if_pos hf, Prod.mk.injEq] at h
      obtain ⟨rfl, rfl⟩ := h
      cases d' <;> cases d <;> exact Int.le_refl _
    · simp only [advance, if_neg hf, Prod.mk.injEq] at h
      obtain ⟨rfl, rfl⟩ := h
      exact Int.le_refl _
  | poolBack d' buf =>
    left
    obtain ⟨rfl, rfl⟩ := Prod.mk.inj h
    rw [liveData_congr (setCommandFreeList_live _ _)]
    exact Int.le_of_eq (congrArg _ (held_noBlock d'))
  | commandHeap =>
    left
    obtain ⟨rfl, rfl⟩ := Prod.mk.inj h
    by_cases h0 : o.heap = 0
    · simp [heldCtx, held, h0]
    · cases d <;> simp [heldCtx, held, h0, dataOps]
  | heapAlloc d' =>
    left
    obtain ⟨rfl, rfl⟩ := Prod.mk.inj h
    by_cases h0 : o.heap = 0
    · rw [if_pos h0]
      simp only [heldCtx, Option.elim, held]
      split_ifs <;> omega
    · rw [if_neg h0]
      cases d' <;> cases d <;> simp [heldCtx, held, dataOps]
  | pauseCheck pkt =>
    left
    obtain ⟨rfl, rfl⟩ := Prod.mk.inj h
    split_ifs <;> cases d <;> exact Int.le_refl _
  | pauseSet pkt =>
    left
    obtain ⟨rfl, rfl⟩ := Prod.mk.inj h
    split_ifs <;> cases d <;> exact Int.le_refl _
  | pauseCb pkt =>
    left
    obtain ⟨rfl, rfl⟩ := Prod.mk.inj h
    cases d <;> exact Int.le_refl _
  | fetchSub d' pkt =>
    left
    obtain ⟨rfl, rfl⟩ := Prod.mk.inj h
    rw [liveData_congr (addDataAllocated_live _ _)]
    split_ifs <;> exact Int.le_refl _
  | giveBack d' =>
    left
    obtain ⟨rfl, rfl⟩ := Prod.mk.inj h
    rw [liveData_congr (addDataAllocated_live _ _)]
    exact Int.le_refl _
  | commandFree d' buf =>
    left
    obtain ⟨rfl, rfl⟩ := Prod.mk.inj h
    rw [liveData_congr (setCommandFreeList_live _ _)]
    exact Int.le_refl _
  | heapFree d' pkt =>
    left
    obtain ⟨rfl, rfl⟩ := Prod.mk.inj h
    cases d' <;> exact Int.le_refl _
  | unpauseCheck =>
    left
    obtain ⟨rfl, rfl⟩ := Prod.mk.inj h
    split_ifs <;> exact Int.le_refl _
  | unpauseSet =>
    left
    obtain ⟨rfl, rfl⟩ := Prod.mk.inj h
    split_ifs <;> exact Int.le_refl _
  | unpauseCb =>
    left
    obtain ⟨rfl, rfl⟩ := Prod.mk.inj h
    exact Int.le_refl _
  | ret pkt =>
    left
    obtain ⟨rfl, rfl⟩ := Prod.mk.inj h
    rw [liveData_hand]
    cases pkt <;> exact Int.le_of_eq (Int.add_zero _)
  | asserted =>
    left
    obtain ⟨rfl, rfl⟩ := Prod.mk.inj h
    exact Int.le_refl _

/-- No packet is handed out at no address. -/
theorem advance_ret {pkt : Packet} (h : advance c o s p = (t, some (.ret (some pkt)))) :
    ¬ pkt.Null := by
  have hq := congrArg Prod.snd h
  rintro ⟨hops, haddr⟩
  cases p with
  | poolTake d => cases hl : commandFreeList s d <;> cases d <;> simp [advance, hl, noBlock] at hq
  | poolInit d buf =>
    by_cases hf : o.fits = true <;> cases d <;> simp [advance, hf, commandPacket] at hq <;>
      · subst hq
        cases hops
  | poolBack d buf => cases d <;> simp [advance, noBlock] at hq
  | commandHeap =>
    by_cases h0 : o.heap = 0 <;> simp [advance, h0] at hq
    subst hq
    cases hops
  | fetchAdd d => by_cases hfull : c.blocks d ≤ dataAllocated s d <;> simp [advance, hfull] at hq
  | heapAlloc d =>
    by_cases h0 : o.heap = 0 <;> cases d <;> simp [advance, h0] at hq
    subst hq
    exact h0 haddr
  | pauseCheck pkt' =>
    by_cases hc : c.txPauseThreshold < s.pktmem.txDataAllocated <;> simp [advance, hc] at hq
    subst hq
    cases hops
  | pauseSet pkt' =>
    by_cases hp : s.pktmem.txDataPaused = true <;> simp [advance, hp] at hq
    subst hq
    cases hops
  | pauseCb pkt' =>
    simp [advance] at hq
    subst hq
    cases hops
  | fetchSub d pkt' =>
    simp only [advance] at hq
    split at hq <;> cases hq
  | heapFree d pkt' => cases d <;> simp [advance] at hq
  | unpauseCheck =>
    by_cases hl : s.pktmem.txDataAllocated < c.txUnpauseThreshold <;> simp [advance, hl] at hq
  | unpauseSet => by_cases hp : s.pktmem.txDataPaused = true <;> simp [advance, hp] at hq
  | _ => simp [advance] at hq

/-- The assertion fails only where the counter is not positive. -/
theorem advance_asserted (h : advance c o s p = (t, some .asserted)) :
    p = .asserted ∨ ∃ pkt, p = .fetchSub .tx pkt ∧ ¬ 0 < dataAllocated s .tx := by
  have hq := congrArg Prod.snd h
  cases p with
  | asserted => exact .inl rfl
  | fetchSub d pkt =>
    right
    by_cases hd : d = .tx ∧ ¬ 0 < dataAllocated s d
    · obtain ⟨rfl, hpos⟩ := hd
      exact ⟨pkt, rfl, hpos⟩
    · simp only [advance, if_neg hd] at hq
      cases hq
  | poolTake d => cases hl : commandFreeList s d <;> cases d <;> simp [advance, hl, noBlock] at hq
  | poolInit d buf => by_cases hf : o.fits = true <;> simp [advance, hf] at hq
  | poolBack d buf => cases d <;> simp [advance, noBlock] at hq
  | fetchAdd d => by_cases hfull : c.blocks d ≤ dataAllocated s d <;> simp [advance, hfull] at hq
  | heapAlloc d => by_cases h0 : o.heap = 0 <;> cases d <;> simp [advance, h0] at hq
  | pauseCheck pkt =>
    by_cases hc : c.txPauseThreshold < s.pktmem.txDataAllocated <;> simp [advance, hc] at hq
  | pauseSet pkt => by_cases hp : s.pktmem.txDataPaused = true <;> simp [advance, hp] at hq
  | heapFree d pkt => cases d <;> simp [advance] at hq
  | unpauseCheck =>
    by_cases hl : s.pktmem.txDataAllocated < c.txUnpauseThreshold <;> simp [advance, hl] at hq
  | unpauseSet => by_cases hp : s.pktmem.txDataPaused = true <;> simp [advance, hp] at hq
  | _ => simp [advance] at hq

/-! ## The account -/

/-- What the calls in progress owe the counter of `d`, and the packets they have been let through to
take. -/
def owedAll (d : Dir) (xs : List Active) : Int := (xs.map fun x => owed d x.pc).sum

def heldAll (d : Dir) (xs : List Active) : Int := (xs.map fun x => held d x.pc).sum

/-- **The account of a session.** -/
structure Accounts (c : Config) (x : Many State Active) : Prop where
  counter : ∀ d, dataAllocated x.shared d = liveData d x.shared + owedAll d x.calls
  room : ∀ d, liveData d x.shared + heldAll d x.calls ≤ c.blocks d
  live : ∀ pkt ∈ x.shared.live, ¬ pkt.Null
  handed : ∀ a ∈ x.calls, ∀ pkt, a.pc = .ret (some pkt) → ¬ pkt.Null
  net : ∀ a ∈ x.calls, ∀ d, a.net d = owed d a.pc - debt d a.call
  asserted : ∀ a ∈ x.calls, a.pc ≠ .asserted

theorem heldAll_le_owedAll (xs : List Active) : heldAll d xs ≤ owedAll d xs :=
  List.sum_le_sum fun x _ => held_le_owed d x.pc

theorem owed_le_owedAll {xs : List Active} {x : Active} (hx : x ∈ xs) : owed d x.pc ≤ owedAll d xs :=
  List.single_le_sum (fun n hn => by
    obtain ⟨y, -, rfl⟩ := List.mem_map.mp hn
    exact owed_nonneg d y.pc) _ (List.mem_map_of_mem hx)

theorem owedAll_cons (x : Active) (xs : List Active) : owedAll d (x :: xs) = owed d x.pc + owedAll d xs :=
  List.sum_cons

theorem heldAll_cons (x : Active) (xs : List Active) : heldAll d (x :: xs) = held d x.pc + heldAll d xs :=
  List.sum_cons

/-- What the call of an allocation begins with. -/
theorem held_start {k : Call} (h : startCall c s k = some (t, p)) : held d p = 0 := by
  obtain ⟨-, cls, x, y, m, rfl⟩ | ⟨-, cls, n, m, rfl⟩ | ⟨pkt, -, -, rfl⟩ := startCall_cases h
  · unfold allocMmpktForTx
    split_ifs <;> rfl
  · unfold allocMmpktForRx
    split_ifs <;> rfl
  · unfold freeMmpkt
    split
    case h_4 => split_ifs <;> rfl
    all_goals rfl

theorem owed_start {k : Call} (h : startCall c s k = some (t, p)) (hnull : ∀ pkt ∈ s.live, ¬ pkt.Null) :
    owed d p = debt d k := by
  cases k with
  | allocTx cls a b m =>
    obtain ⟨-, rfl⟩ := Prod.mk.inj (Option.some.inj h)
    exact owed_allocMmpktForTx
  | allocRx cls n m =>
    obtain ⟨-, rfl⟩ := Prod.mk.inj (Option.some.inj h)
    exact owed_allocMmpktForRx
  | free pkt =>
    obtain ⟨hpkt, h⟩ := Option.ite_none_right_eq_some.mp h
    obtain ⟨-, rfl⟩ := Prod.mk.inj (Option.some.inj h)
    exact owed_freeMmpkt fun _ => hnull pkt hpkt

/-- A call that begins hands nothing out and has not failed. -/
theorem start_pc {k : Call} (h : startCall c s k = some (t, p)) :
    p ≠ .asserted ∧ ∀ pkt, p ≠ .ret (some pkt) := by
  obtain ⟨-, cls, x, y, m, rfl⟩ | ⟨-, cls, n, m, rfl⟩ | ⟨pkt, -, -, rfl⟩ := startCall_cases h
  · unfold allocMmpktForTx
    split_ifs <;> exact ⟨Pc.noConfusion, fun _ h => nomatch h⟩
  · unfold allocMmpktForRx
    split_ifs <;> exact ⟨Pc.noConfusion, fun _ h => nomatch h⟩
  · unfold freeMmpkt
    split
    case h_4 => split_ifs <;> exact ⟨Pc.noConfusion, fun _ h => nomatch h⟩
    all_goals exact ⟨Pc.noConfusion, fun _ h => nomatch h⟩

theorem start_live {k : Call} (h : startCall c s k = some (t, p)) : t.live.Sublist s.live := by
  obtain ⟨rfl, -⟩ | ⟨rfl, -⟩ | ⟨pkt, -, rfl, -⟩ := startCall_cases h
  · exact List.Sublist.refl _
  · exact List.Sublist.refl _
  · exact List.erase_sublist

variable {x y : Many State Active} {e : ManyEvent Call Outside}

theorem Accounts.call {k : Call} {xs : List Active} (h : Accounts c ⟨s, xs⟩)
    (hst : startCall c s k = some (t, p)) : Accounts c ⟨t, ⟨k, p, fun _ => 0⟩ :: xs⟩ := by
  have hsub := start_live hst
  refine ⟨fun d => ?_, fun d => ?_, fun pkt hpkt => h.live pkt (hsub.subset hpkt), ?_, ?_, ?_⟩
  · have hacc := start_account (d := d) hst fun _ => h.live
    have hcounter := h.counter d
    rw [owedAll_cons]
    simp only at hcounter ⊢
    omega
  · have hlive : liveData d t ≤ liveData d s := hsub.countP_le
    have hroom := h.room d
    rw [heldAll_cons, held_start hst]
    simp only at hroom ⊢
    omega
  · exact List.forall_mem_cons.mpr ⟨fun pkt hp => absurd hp ((start_pc hst).2 pkt), h.handed⟩
  · refine List.forall_mem_cons.mpr ⟨fun d => ?_, h.net⟩
    show 0 = owed d p - debt d k
    rw [owed_start hst h.live, Int.sub_self]
  · exact List.forall_mem_cons.mpr ⟨(start_pc hst).1, h.asserted⟩

/-- The call after a step, which goes on keeping count. -/
def Active.after (x : Active) (s t : State) (p : Pc) : Active :=
  ⟨x.call, p, fun d => x.net d + (dataAllocated t d - dataAllocated s d)⟩

theorem Accounts.advance {l r : List Active} {x : Active} (h : Accounts c ⟨s, l ++ x :: r⟩)
    (hst : advance c o s x.pc = (t, q)) :
    Accounts c ⟨t, l ++ ((q.map (x.after s t)).toList ++ r)⟩ := by
  have hx : x ∈ l ++ x :: r := List.mem_append_right _ (List.mem_cons_self ..)
  have howed : ∀ d, (q.map (x.after s t)).elim 0 (fun x => owed d x.pc) = owedCtx d q := fun d => by
    cases q <;> rfl
  have hheld : ∀ d, (q.map (x.after s t)).elim 0 (fun x => held d x.pc) = heldCtx d q := fun d => by
    cases q <;> rfl
  refine ⟨fun d => ?_, fun d => ?_, ?_, ?_, ?_, ?_⟩
  · have hacc := advance_account (d := d) hst
    have hcounter := h.counter d
    unfold owedAll at hcounter ⊢
    rw [Many.sum_replace (p := x), howed]
    simp only at hcounter ⊢
    omega
  · have hroom := h.room d
    have hle := heldAll_le_owedAll (d := d) (l ++ x :: r)
    have hcounter := h.counter d
    unfold heldAll at hroom hle ⊢
    rw [Many.sum_replace (p := x), hheld]
    simp only at hroom hcounter ⊢
    obtain hst | ⟨hp, hlow, hlive⟩ := advance_held (d := d) hst
    · omega
    · have hnone : held d x.pc = 0 := by rw [hp]; rfl
      omega
  · cases q with
    | some p =>
      rw [advance_live hst]
      exact h.live
    | none =>
      obtain ⟨pkt, hpc, hlive⟩ := advance_none hst
      rw [hlive]
      intro pkt' hpkt
      obtain hpkt | hpkt := List.mem_append.mp hpkt
      · exact h.handed x hx pkt' (hpc.trans (congrArg _ (Option.mem_toList.mp hpkt)))
      · exact h.live pkt' hpkt
  · refine Many.forall_replace h.handed fun x' hx' pkt hpc => ?_
    obtain ⟨p, rfl, rfl⟩ := Option.map_eq_some_iff.mp hx'
    obtain rfl : p = .ret (some pkt) := hpc
    exact advance_ret hst
  · refine Many.forall_replace h.net fun x' hx' d => ?_
    obtain ⟨p, rfl, rfl⟩ := Option.map_eq_some_iff.mp hx'
    have hacc := advance_account (d := d) hst
    rw [liveData_congr (advance_live hst)] at hacc
    have hnet := h.net x hx d
    simp only [Active.after, owedCtx, Option.elim] at hacc ⊢
    omega
  · refine Many.forall_replace h.asserted fun x' hx' hpc => ?_
    obtain ⟨p, rfl, rfl⟩ := Option.map_eq_some_iff.mp hx'
    obtain rfl : p = .asserted := hpc
    obtain hp | ⟨pkt, hp, hpos⟩ := advance_asserted hst
    · exact h.asserted x hx hp
    · -- the packet that is being freed is counted
      have hone : owed .tx x.pc = 1 := by rw [hp]; rfl
      have hle := owed_le_owedAll (d := .tx) hx
      have hcounter := h.counter .tx
      simp only at hcounter
      omega

/-- **Every step keeps the account.** -/
theorem Accounts.step (h : Accounts c x) (hs : (activeProg c).AnyStep x e y) : Accounts c y := by
  cases hs with
  | call hst =>
    obtain ⟨⟨t, p⟩, hcall, hr⟩ := Option.map_eq_some_iff.mp hst
    obtain ⟨rfl, rfl⟩ := Prod.mk.inj hr
    exact h.call hcall
  | step hst =>
    obtain ⟨rfl, rfl⟩ := Prod.mk.inj hst
    exact h.advance rfl

theorem Accounts.init (txBlocks rxBlocks : List Nat) : Accounts c ⟨pktmemInit txBlocks rxBlocks, []⟩ where
  counter d := by cases d <;> rfl
  room d := by cases d <;> exact Int.natCast_nonneg _
  live _ h := absurd h List.not_mem_nil
  handed _ h := absurd h List.not_mem_nil
  net _ h := absurd h List.not_mem_nil
  asserted _ h := absurd h List.not_mem_nil

/-- **Packet accounting**, in every interleaving of allocations and frees with any heap failures. -/
theorem packets_accounted (c : Config) (txBlocks rxBlocks : List Nat) (tr : List (ManyEvent Call Outside))
    (x : Many State Active)
    (hr : Run (activeProg c).AnyStep ⟨pktmemInit txBlocks rxBlocks, []⟩ tr x) :
    (∀ d, liveData d x.shared + heldAll d x.calls ≤ c.blocks d) ∧
      (x.calls = [] → ∀ d, dataAllocated x.shared d = liveData d x.shared) ∧
      (∀ a ∈ x.calls, a.call.isAlloc = true → a.pc = .ret none → ∀ d, a.net d = 0) ∧
      ∀ a ∈ x.calls, a.pc ≠ .asserted := by
  have h : Accounts c x := hr.inv (.init txBlocks rxBlocks) fun _ _ _ h hs => h.step hs
  refine ⟨h.room, fun hquiet d => ?_, fun a ha halloc hpc d => ?_, h.asserted⟩
  · have hcounter := h.counter d
    rw [hquiet] at hcounter
    exact hcounter.trans (Int.add_zero _)
  · have hdebt : debt d a.call = 0 := by
      cases hcall : a.call with
      | free pkt => exact nomatch hcall ▸ halloc
      | _ => rfl
    rw [h.net a ha d, hpc, hdebt]
    rfl

/-- An allocation, then one that gets no memory while an interrupt frees the first packet. -/
def interleaved : List (ManyEvent Call Outside) :=
  .call .thread (.allocTx .data 0 0 0) :: List.replicate 4 (.step .thread 0 ⟨0x100, true⟩) ++
    [.call .thread (.allocTx .data 0 0 0), .step .thread 0 ⟨0, true⟩, .call .irq (.free ⟨0x100, .txData⟩),
      .step .irq 0 ⟨0, true⟩, .step .thread 1 ⟨0, true⟩, .step .irq 0 ⟨0, true⟩, .step .thread 1 ⟨0, true⟩]

/-- The allocation has failed while the free is not over. -/
theorem packets_accounted_interleaved : ∃ x,
    Run (activeProg threeBlocks).AnyStep ⟨pktmemInit [] [], []⟩ interleaved x ∧ x.calls.length = 2 ∧
      ∃ a ∈ x.calls, a.pc = .ret none ∧ ∀ d, a.net d = 0 := by
  have hfold : (interleaved.foldlM (activeProg threeBlocks).execAny ⟨pktmemInit [] [], []⟩).any
      (fun x => x.calls.length == 2 && x.calls.any fun a => a.call.isAlloc && a.pc == .ret none) =
        true := by decide
  obtain ⟨x, hr, hx⟩ := Run.ofFold_any (fun _ _ _ => Prog.anyStep_of_exec) hfold
  obtain ⟨hlen, hany⟩ := Bool.and_eq_true_iff.mp hx
  obtain ⟨a, ha, hcall⟩ := List.any_eq_true.mp hany
  obtain ⟨halloc, hpc⟩ := Bool.and_eq_true_iff.mp hcall
  have hret : a.pc = .ret none := eq_of_beq hpc
  exact ⟨x, hr, eq_of_beq hlen, a, ha, hret,
    (packets_accounted threeBlocks [] [] interleaved x hr).2.2.1 a ha halloc hret⟩

end MmHalow.Pkt
