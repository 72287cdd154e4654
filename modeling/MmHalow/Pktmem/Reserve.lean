import MmHalow.Pktmem.Sessions
import Mathlib.Data.List.Nodup
import Mathlib.Data.List.Perm.Subperm

/-!
# Reserved command blocks

A session carves a few blocks for commands in each direction. A block goes from its free list to a packet
and back through the packet's `free_mmpkt`, and so does one that turns out too small for its request.
`mmhal_wlan_pktmem_deinit` looks at the lists up to a hundred times, sleeping in between, and gives the
pools back only where it has seen them whole.

| source                          | here                                     |
|---------------------------------|------------------------------------------|
| `mm_halow_pool_init`            | `poolBlocks`                             |
| `mmhal_wlan_pktmem_init`        | `Reserve.init`                           |
| `mmhal_wlan_pktmem_deinit`      | `Reserve.drained`, `Reserve.poll`        |

* `advance_blockCount`: a step of a call moves a block between the list, the packets and the call.
* `blocks_conserved`: **in every run of a session each block is on its own direction's free list once or
  has one live packet, wherever no call is in progress; an allocation takes a block where one is free and
  the request fits; and a pool goes back to the heap only when all its blocks are on the list.** The calls
  may be interleaved in any way, with each other and with the sleeps of the deinit.
-/

namespace MmHalow.Pkt

open MmHalow.Lib

/-! ## The pools -/

/-- `MM_HALOW_TX_COMMAND_BLOCK_SIZE` and `MM_HALOW_RX_COMMAND_BLOCK_SIZE`. -/
def Config.commandBlockSize (c : Config) : Dir → Nat
  | .tx => 352
  | .rx => c.rxMaxSize.toNat

/-- `MM_HALOW_TX_COMMAND_N_BLOCKS` and `MM_HALOW_RX_COMMAND_N_BLOCKS`. -/
def commandNBlocks : Dir → Nat
  | .tx => 2
  | .rx => 2

/-- `mm_halow_pool_init`: the list after the blocks of `pool` have been put on it, if there is a pool. -/
def poolBlocks (list : List Nat) (pool blockSize nBlocks : Nat) : List Nat :=
  if pool = 0 then list
  else (List.range nBlocks).foldl (fun list i => list ++ [pool + blockSize * i]) list

/-- How far `mmhal_wlan_pktmem_deinit` is. -/
inductive Deinit where
  | uncalled
  | polling (i : Nat)
  | ended
  deriving Repr, DecidableEq

/-- A session: the shared state and the calls in progress, `tx_command_pool` and `rx_command_pool`, the
deinit, and the pools it has given to `mm_halow_osal_free`. -/
structure Reserve where
  mem : State
  calls : List Pc
  pool : Dir → Nat
  deinit : Deinit
  freed : List Nat

/-- What happens next: a call begins or takes a step; the deinit begins; it looks once more, and goes on
or sleeps. -/
inductive ReserveEvent where
  | own (e : ManyEvent Call Outside)
  | deinit
  | poll
  deriving DecidableEq

/-- The blocks carved for `d`. -/
def Config.carved (c : Config) (pool : Dir → Nat) (d : Dir) : List Nat :=
  poolBlocks [] (pool d) (c.commandBlockSize d) (commandNBlocks d)

/-- `mmhal_wlan_pktmem_init`, where `pool` is what `mm_halow_osal_malloc` has returned. -/
def Reserve.init (c : Config) (pool : Dir → Nat) : Reserve where
  mem := pktmemInit (c.carved pool .tx) (c.carved pool .rx)
  calls := []
  pool := pool
  deinit := .uncalled
  freed := []

/-- `drained`. -/
def Reserve.drained (x : Reserve) : Bool :=
  x.mem.pktmem.txDataAllocated == 0 && x.mem.pktmem.rxDataAllocated == 0 &&
    (x.pool .tx == 0 || x.mem.pktmem.txCommandFreeList.length == commandNBlocks .tx) &&
      (x.pool .rx == 0 || x.mem.pktmem.rxCommandFreeList.length == commandNBlocks .rx)

/-- One turn of the loop in `mmhal_wlan_pktmem_deinit`, and what comes after the loop. -/
def Reserve.poll (x : Reserve) (i : Nat) : Reserve :=
  if i < 100 then
    if x.drained then
      { x with mem := pktmemInit [] [], deinit := .ended, freed := x.freed ++ [x.pool .tx, x.pool .rx] }
    else { x with deinit := .polling (i + 1) }
  else { x with mem := pktmemInit [] [], deinit := .ended }

/-- The effect of an event; `none` where it cannot happen. -/
def Reserve.next (c : Config) (x : Reserve) : ReserveEvent → Option Reserve
  | .own e =>
    if x.deinit = .ended then none
    else ((pktProg c).execAny ⟨x.mem, x.calls⟩ e).map fun m => { x with mem := m.shared, calls := m.calls }
  | .deinit => if x.deinit = .uncalled then some { x with deinit := .polling 0 } else none
  | .poll =>
    match x.deinit with
    | .polling i => some (x.poll i)
    | _ => none

/-- The steps of a session. -/
def Reserve.Step (c : Config) (x : Reserve) (e : ReserveEvent) (y : Reserve) : Prop := x.next c e = some y

theorem foldl_append_singleton {α : Type} (f : Nat → α) (list : List α) (is : List Nat) :
    is.foldl (fun list i => list ++ [f i]) list = list ++ is.map f := by
  induction is generalizing list with
  | nil => simp
  | cons i is ih =>
    rw [List.foldl_cons, ih, List.append_assoc]
    rfl

variable {c : Config} {o : Outside} {s t : State} {p : Pc} {q : Option Pc} {d : Dir} {buf : Nat}
  {pool : Dir → Nat} {x y : Reserve} {e : ReserveEvent}

theorem carved_eq (hp : pool d ≠ 0) :
    c.carved pool d = (List.range (commandNBlocks d)).map fun i => pool d + c.commandBlockSize d * i := by
  unfold Config.carved poolBlocks
  rw [if_neg hp, foldl_append_singleton, List.nil_append]

theorem commandBlockSize_pos (hsize : 0 < c.rxMaxSize) (d : Dir) : 0 < c.commandBlockSize d := by
  cases d with
  | tx => exact Nat.zero_lt_succ 351
  | rx => exact hsize

/-- The blocks of a pool do not coincide. -/
theorem carved_nodup (hsize : 0 < c.rxMaxSize) (pool : Dir → Nat) (d : Dir) : (c.carved pool d).Nodup := by
  by_cases hp : pool d = 0
  · unfold Config.carved poolBlocks
    rw [if_pos hp]
    exact List.nodup_nil
  · rw [carved_eq hp]
    refine List.Nodup.map (fun i j h => ?_) List.nodup_range
    exact Nat.eq_of_mul_eq_mul_left (commandBlockSize_pos hsize d) (Nat.add_left_cancel h)

theorem carved_length (hp : pool d ≠ 0) : (c.carved pool d).length = commandNBlocks d := by
  rw [carved_eq hp, List.length_map, List.length_range]

/-! ## Where a block is -/

/-- A call at `p` has the block `buf` of `d`. -/
def hasBlock (d : Dir) (buf : Nat) : Pc → Int
  | .poolInit d' b | .poolBack d' b | .commandFree d' b => if d' = d ∧ b = buf then 1 else 0
  | .ret (some pkt) => if pkt = commandPacket buf d then 1 else 0
  | _ => 0

/-- The same of a call that may have returned. -/
def hasBlockCtx (d : Dir) (buf : Nat) (q : Option Pc) : Int := q.elim 0 (hasBlock d buf)

/-- How often `buf` is on the free list of `d` or has a live packet. -/
def restingBlock (d : Dir) (buf : Nat) (s : State) : Int :=
  (commandFreeList s d).count buf + s.live.count (commandPacket buf d)

theorem commandPacket_inj {d' : Dir} {b : Nat} :
    commandPacket b d' = commandPacket buf d ↔ d' = d ∧ b = buf := by
  cases d' <;> cases d <;> simp [commandPacket]

theorem hasBlock_noBlock (d' : Dir) : hasBlock d buf (noBlock d') = 0 := by
  cases d' <;> rfl

/-- A step that leaves the lists and the packets alone. -/
theorem restingBlock_congr (hl : commandFreeList t d = commandFreeList s d) (h : t.live = s.live) :
    restingBlock d buf t = restingBlock d buf s := by
  unfold restingBlock
  rw [hl, h]

theorem restingBlock_addDataAllocated (n : Int) (d' : Dir) :
    restingBlock d buf (addDataAllocated s n d') = restingBlock d buf s :=
  restingBlock_congr (commandFreeList_addDataAllocated _ _) (addDataAllocated_live _ _)

/-- A block put on a list. -/
theorem restingBlock_append (d' : Dir) (b : Nat) :
    restingBlock d buf (setCommandFreeList s (commandFreeList s d' ++ [b]) d') =
      restingBlock d buf s + if d' = d ∧ b = buf then 1 else 0 := by
  unfold restingBlock
  rw [commandFreeList_set, setCommandFreeList_live]
  by_cases hd : d' = d
  · subst hd
    rw [if_pos rfl, List.count_append, List.count_singleton]
    by_cases hb : b = buf
    · simp [hb]
      omega
    · simp [hb]
  · rw [if_neg hd, if_neg fun h => hd h.1, Int.add_zero]

/-- A block taken from a list. -/
theorem restingBlock_tail {b : Nat} {rest : List Nat} (d' : Dir) (h : commandFreeList s d' = b :: rest) :
    restingBlock d buf (setCommandFreeList s rest d') + (if d' = d ∧ b = buf then 1 else 0) =
      restingBlock d buf s := by
  unfold restingBlock
  rw [commandFreeList_set, setCommandFreeList_live]
  by_cases hd : d' = d
  · subst hd
    rw [if_pos rfl, h, List.count_cons]
    by_cases hb : b = buf
    · simp [hb]
      omega
    · simp [hb]
  · rw [if_neg hd, if_neg fun h => hd h.1, Int.add_zero]

/-- **A step moves a block** between the list, the packets and the call. -/
theorem advance_blockCount (h : advance c o s p = (t, q)) :
    restingBlock d buf t + hasBlockCtx d buf q = restingBlock d buf s + hasBlock d buf p := by
  cases p with
  | poolTake d' =>
    cases hl : commandFreeList s d' with
    | nil =>
      simp only [advance, hl, Prod.mk.injEq] at h
      obtain ⟨rfl, rfl⟩ := h
      exact congrArg _ (hasBlock_noBlock d')
    | cons b rest =>
      simp only [advance, hl, Prod.mk.injEq] at h
      obtain ⟨rfl, rfl⟩ := h
      exact (restingBlock_tail d' hl).trans (Int.add_zero _).symm
  | poolInit d' b =>
    by_cases hf : o.fits = true
    · simp only [advance, if_pos hf, Prod.mk.injEq] at h
      obtain ⟨rfl, rfl⟩ := h
      simp only [hasBlockCtx, Option.elim, hasBlock, commandPacket_inj]
    · simp only [advance, if_neg hf, Prod.mk.injEq] at h
      obtain ⟨rfl, rfl⟩ := h
      rfl
  | poolBack d' b =>
    obtain ⟨rfl, rfl⟩ := Prod.mk.inj h
    rw [restingBlock_append]
    exact (congrArg _ (hasBlock_noBlock d')).trans (Int.add_zero _)
  | commandHeap =>
    obtain ⟨rfl, rfl⟩ := Prod.mk.inj h
    by_cases h0 : o.heap = 0
    · rw [if_pos h0]
      rfl
    · rw [if_neg h0]
      cases d <;> simp [hasBlockCtx, hasBlock, commandPacket]
  | fetchAdd d' =>
    obtain ⟨rfl, rfl⟩ := Prod.mk.inj h
    rw [restingBlock_addDataAllocated]
    split_ifs <;> rfl
  | giveBack d' =>
    obtain ⟨rfl, rfl⟩ := Prod.mk.inj h
    rw [restingBlock_addDataAllocated]
    rfl
  | heapAlloc d' =>
    obtain ⟨rfl, rfl⟩ := Prod.mk.inj h
    by_cases h0 : o.heap = 0
    · rw [if_pos h0]
      rfl
    · rw [if_neg h0]
      cases d' <;> cases d <;> simp [hasBlockCtx, hasBlock, commandPacket]
  | pauseCheck pkt =>
    obtain ⟨rfl, rfl⟩ := Prod.mk.inj h
    split_ifs
    · rfl
    · cases d <;> simp [hasBlockCtx, hasBlock, commandPacket]
  | pauseSet pkt =>
    obtain ⟨rfl, rfl⟩ := Prod.mk.inj h
    rw [show restingBlock d buf (setTxDataPaused s true) = restingBlock d buf s by cases d <;> rfl]
    split_ifs
    · cases d <;> simp [hasBlockCtx, hasBlock, commandPacket]
    · rfl
  | pauseCb pkt =>
    obtain ⟨rfl, rfl⟩ := Prod.mk.inj h
    rw [show restingBlock d buf (txFlowControlCb s) = restingBlock d buf s by cases d <;> rfl]
    cases d <;> simp [hasBlockCtx, hasBlock, commandPacket]
  | commandFree d' b =>
    obtain ⟨rfl, rfl⟩ := Prod.mk.inj h
    rw [restingBlock_append]
    exact Int.add_zero _
  | fetchSub d' pkt =>
    obtain ⟨rfl, rfl⟩ := Prod.mk.inj h
    rw [restingBlock_addDataAllocated]
    split_ifs <;> rfl
  | heapFree d' pkt =>
    obtain ⟨rfl, rfl⟩ := Prod.mk.inj h
    cases d' <;> rfl
  | unpauseCheck =>
    obtain ⟨rfl, rfl⟩ := Prod.mk.inj h
    split_ifs <;> rfl
  | unpauseSet =>
    obtain ⟨rfl, rfl⟩ := Prod.mk.inj h
    rw [show restingBlock d buf (setTxDataPaused s false) = restingBlock d buf s by cases d <;> rfl]
    split_ifs <;> rfl
  | unpauseCb =>
    obtain ⟨rfl, rfl⟩ := Prod.mk.inj h
    rw [show restingBlock d buf (txFlowControlCb s) = restingBlock d buf s by cases d <;> rfl]
    rfl
  | ret pkt =>
    obtain ⟨rfl, rfl⟩ := Prod.mk.inj h
    cases pkt with
    | none => cases d <;> rfl
    | some pkt =>
      have hcount : restingBlock d buf { s with live := pkt :: s.live } =
          restingBlock d buf s + if pkt = commandPacket buf d then 1 else 0 := by
        unfold restingBlock
        rw [List.count_cons, show commandFreeList { s with live := pkt :: s.live } d = commandFreeList s d by
          cases d <;> rfl]
        by_cases hpkt : pkt = commandPacket buf d
        · simp [hpkt]
          omega
        · simp [hpkt]
      exact (Int.add_zero _).trans hcount
  | asserted =>
    obtain ⟨rfl, rfl⟩ := Prod.mk.inj h
    rfl

/-- A call that begins takes a block from the packet that it frees. -/
theorem start_blockCount {k : Call} (h : startCall c s k = some (t, p)) :
    restingBlock d buf t + hasBlock d buf p = restingBlock d buf s := by
  obtain ⟨rfl, cls, x, y, m, rfl⟩ | ⟨rfl, cls, n, m, rfl⟩ | ⟨pkt, hpkt, rfl, rfl⟩ := startCall_cases h
  · unfold allocMmpktForTx
    split_ifs <;> exact Int.add_zero _
  · unfold allocMmpktForRx
    split_ifs <;> exact Int.add_zero _
  · have hcount : restingBlock d buf { s with live := s.live.erase pkt } +
        (if pkt = commandPacket buf d then 1 else 0) = restingBlock d buf s := by
      unfold restingBlock
      rw [show commandFreeList { s with live := s.live.erase pkt } d = commandFreeList s d by cases d <;> rfl]
      have hperm := (List.perm_cons_erase hpkt).count_eq (commandPacket buf d)
      rw [List.count_cons] at hperm
      by_cases heq : pkt = commandPacket buf d
      · simp [heq] at hperm ⊢
        omega
      · simp [heq] at hperm ⊢
        omega
    have hfree : hasBlock d buf (freeMmpkt pkt) = if pkt = commandPacket buf d then 1 else 0 := by
      obtain ⟨addr, ops⟩ := pkt
      cases ops with
      | rxData =>
        unfold freeMmpkt
        simp only
        split_ifs <;> cases d <;> simp_all [hasBlock, commandPacket]
      | _ => cases d <;> simp [freeMmpkt, hasBlock, commandPacket]
    rw [hfree]
    exact hcount

/-! ## Conservation -/

/-- How often `buf` is at hand in the calls in progress. -/
def hasBlockAll (d : Dir) (buf : Nat) (ps : List Pc) : Int := (ps.map (hasBlock d buf)).sum

/-- **The blocks are those that were carved**, as long as the session is not over. -/
structure Conserved (c : Config) (pool : Dir → Nat) (x : Reserve) : Prop where
  pools : x.pool = pool
  count : x.deinit ≠ .ended → ∀ d buf,
    restingBlock d buf x.mem + hasBlockAll d buf x.calls = (c.carved pool d).count buf
  freed : x.deinit ≠ .ended → x.freed = []

theorem hasBlock_nonneg (d : Dir) (buf : Nat) (p : Pc) : 0 ≤ hasBlock d buf p := by
  unfold hasBlock
  split <;> try split
  all_goals decide

theorem hasBlockAll_nonneg (d : Dir) (buf : Nat) (ps : List Pc) : 0 ≤ hasBlockAll d buf ps := by
  refine List.sum_nonneg fun n hn => ?_
  obtain ⟨p, -, rfl⟩ := List.mem_map.mp hn
  exact hasBlock_nonneg d buf p

theorem Conserved.init (c : Config) (pool : Dir → Nat) : Conserved c pool (.init c pool) := by
  refine ⟨rfl, fun _ d buf => ?_, fun _ => rfl⟩
  cases d <;> simp [Reserve.init, pktmemInit, restingBlock, commandFreeList, hasBlockAll]

/-- A step of the calls. -/
theorem anyStep_blockCount {m n : Many State Pc} {e : ManyEvent Call Outside}
    (h : (pktProg c).AnyStep m e n) :
    restingBlock d buf n.shared + hasBlockAll d buf n.calls =
      restingBlock d buf m.shared + hasBlockAll d buf m.calls := by
  cases h with
  | @call s t ps i k p hst =>
    have hcount : restingBlock d buf t + hasBlock d buf p = restingBlock d buf s := start_blockCount hst
    simp only [hasBlockAll, List.map_cons, List.sum_cons] at hcount ⊢
    omega
  | @step s t l r i p q o hst =>
    have hcount : restingBlock d buf t + hasBlockCtx d buf q = restingBlock d buf s + hasBlock d buf p :=
      advance_blockCount hst
    have hsum := Many.sum_replace (l := l) (r := r) (p := p) (q := q) (hasBlock d buf)
    simp only [hasBlockAll, hasBlockCtx] at hcount hsum ⊢
    omega

theorem Reserve.next_own {e : ManyEvent Call Outside} (h : x.Step c (.own e) y) :
    x.deinit ≠ .ended ∧ ∃ m, (pktProg c).AnyStep ⟨x.mem, x.calls⟩ e m ∧
      y = { x with mem := m.shared, calls := m.calls } := by
  obtain ⟨hover, hy⟩ := Option.ite_none_left_eq_some.mp h
  obtain ⟨m, hm, rfl⟩ := Option.map_eq_some_iff.mp hy
  exact ⟨hover, m, Prog.anyStep_of_exec hm, rfl⟩

/-- **A turn of the deinit** leaves everything, or ends the session: with the pools given back, where it
has seen the lists whole. -/
theorem Reserve.next_poll (h : x.Step c .poll y) : x.deinit ≠ .ended ∧
    ((∃ i, y = { x with deinit := .polling i }) ∨
      y.deinit = .ended ∧ y.pool = x.pool ∧
        (y.freed = x.freed ∨ x.drained = true ∧ y.freed = x.freed ++ [x.pool .tx, x.pool .rx])) := by
  obtain ⟨mem, calls, pool, deinit, freed⟩ := x
  cases deinit with
  | uncalled => exact nomatch h
  | ended => exact nomatch h
  | polling i =>
    refine ⟨Deinit.noConfusion, ?_⟩
    obtain rfl := Option.some.inj h
    unfold Reserve.poll
    by_cases hi : i < 100
    · rw [if_pos hi]
      split
      case isTrue hdrained => exact .inr ⟨rfl, rfl, .inr ⟨hdrained, rfl⟩⟩
      case isFalse => exact .inl ⟨i + 1, rfl⟩
    · rw [if_neg hi]
      exact .inr ⟨rfl, rfl, .inl rfl⟩

/-- **Every step keeps the blocks.** -/
theorem Conserved.step (h : Conserved c pool x) (hs : x.Step c e y) : Conserved c pool y := by
  cases e with
  | own e =>
    obtain ⟨hover, m, hm, rfl⟩ := Reserve.next_own hs
    refine ⟨h.pools, fun _ d buf => ?_, h.freed⟩
    exact (anyStep_blockCount hm).trans (h.count hover d buf)
  | deinit =>
    obtain ⟨hun, hy⟩ := Option.ite_none_right_eq_some.mp hs
    obtain rfl := Option.some.inj hy
    have hover : x.deinit ≠ .ended := fun h => nomatch hun.symm.trans h
    exact ⟨h.pools, fun _ => h.count hover, fun _ => h.freed hover⟩
  | poll =>
    obtain ⟨hover, ⟨i, rfl⟩ | ⟨hend, hpool, -⟩⟩ := Reserve.next_poll hs
    · exact ⟨h.pools, fun _ => h.count hover, fun _ => h.freed hover⟩
    · exact ⟨hpool.trans h.pools, fun h => absurd hend h, fun h => absurd hend h⟩

theorem count_commandFreeList_le (h : Conserved c pool x) (hover : x.deinit ≠ .ended) :
    (commandFreeList x.mem d).count buf ≤ (c.carved pool d).count buf := by
  have hcount := h.count hover d buf
  have hall := hasBlockAll_nonneg d buf x.calls
  unfold restingBlock at hcount
  omega

/-- **A list as long as the pool has all its blocks.** -/
theorem Conserved.whole (h : Conserved c pool x) (hover : x.deinit ≠ .ended) (hd : x.drained = true)
    (hp : pool d ≠ 0) : (commandFreeList x.mem d).Perm (c.carved pool d) := by
  have hlen : (commandFreeList x.mem d).length = commandNBlocks d := by
    unfold Reserve.drained at hd
    rw [h.pools] at hd
    simp only [Bool.and_eq_true, Bool.or_eq_true, beq_iff_eq] at hd
    cases d with
    | tx => exact hd.1.2.resolve_left hp
    | rx => exact hd.2.resolve_left hp
  have hsub : (commandFreeList x.mem d).Subperm (c.carved pool d) :=
    List.subperm_iff_count.mpr fun buf => count_commandFreeList_le h hover
  exact hsub.perm_of_length_le (Nat.le_of_eq ((carved_length hp).trans hlen.symm))

/-! ## An allocation takes a block -/

/-- A request for a command packet of `d` that passes the size check. -/
def CommandRequest (c : Config) : Dir → Call → Prop
  | .tx, .allocTx .command spaceAtStart spaceAtEnd metadataLength =>
    pktSizeOk spaceAtStart spaceAtEnd metadataLength c.txMaxSize = true
  | .rx, .allocRx .command capacity metadataLength => pktSizeOk 0 capacity metadataLength c.rxMaxSize = true
  | _, _ => False

theorem startCall_commandRequest {k : Call} (hk : CommandRequest c d k) :
    startCall c s k = some (s, .poolTake d) := by
  unfold CommandRequest at hk
  split at hk
  · simp [startCall, allocMmpktForTx, hk]
  · simp [startCall, allocMmpktForRx, hk]
  · exact hk.elim

/-- The events of a call that takes three steps without interruption. -/
def threeSteps (i : Ctx) (k : Call) (o₁ o₂ o₃ : Outside) : List ReserveEvent :=
  [.own (.call i k), .own (.step i 0 o₁), .own (.step i 0 o₂), .own (.step i 0 o₃)]

/-- The call that began last takes a step. -/
theorem step_first {ps : List Pc} (hover : x.deinit ≠ .ended) (hx : x.calls = p :: ps) (i : Ctx)
    (h : advance c o x.mem p = (t, q)) :
    x.Step c (.own (.step i 0 o)) { x with mem := t, calls := q.toList ++ ps } := by
  have hexec : (pktProg c).execAny ⟨x.mem, x.calls⟩ (.step i 0 o) = some ⟨t, q.toList ++ ps⟩ := by
    rw [hx]
    simp only [Prog.execAny, pktProg, List.getElem?_cons_zero, Option.map_some, h, List.take_zero,
      List.nil_append, Nat.zero_add, List.drop_succ_cons, List.drop_zero]
  simp only [Reserve.Step, Reserve.next, if_neg hover, hexec, Option.map_some]

/-- **The request is met with the first free block**, where it fits. -/
theorem takes_block {k : Call} {rest : List Nat} (hover : x.deinit ≠ .ended) (hk : CommandRequest c d k)
    (hl : commandFreeList x.mem d = buf :: rest) (i : Ctx) (o₁ o₂ o₃ : Outside) (hfits : o₂.fits = true) :
    Run (Reserve.Step c) x (threeSteps i k o₁ o₂ o₃)
      { x with mem := { setCommandFreeList x.mem rest d with live := commandPacket buf d :: x.mem.live } } := by
  have hcall : x.Step c (.own (.call i k)) { x with calls := .poolTake d :: x.calls } := by
    have hexec : (pktProg c).execAny ⟨x.mem, x.calls⟩ (.call i k) = some ⟨x.mem, .poolTake d :: x.calls⟩ := by
      simp only [Prog.execAny, pktProg, startCall_commandRequest hk, Option.map_some]
    simp only [Reserve.Step, Reserve.next, if_neg hover, hexec, Option.map_some]
  have htake : advance c o₁ x.mem (.poolTake d) = (setCommandFreeList x.mem rest d, some (.poolInit d buf)) := by
    simp only [advance, hl]
  have hinit : advance c o₂ (setCommandFreeList x.mem rest d) (.poolInit d buf) =
      (setCommandFreeList x.mem rest d, some (.ret (some (commandPacket buf d)))) := by
    simp only [advance, hfits, if_true]
  have hret : advance c o₃ (setCommandFreeList x.mem rest d) (.ret (some (commandPacket buf d))) =
      ({ setCommandFreeList x.mem rest d with live := commandPacket buf d :: x.mem.live }, none) := by
    simp only [advance, setCommandFreeList_live, Option.toList_some, List.singleton_append]
  refine Run.cons hcall (Run.cons (step_first (by exact hover) rfl i htake) ?_)
  refine Run.cons (step_first (by exact hover) rfl i hinit) (Run.single ?_)
  exact step_first (x := { x with
    mem := setCommandFreeList x.mem rest d, calls := .ret (some (commandPacket buf d)) :: x.calls })
    hover rfl i hret

/-! ## Every run -/

/-- Where no call is in progress, every block is free once or has one live packet, and the lists have
nothing else. -/
def AtRest (c : Config) (pool : Dir → Nat) (s : State) : Prop :=
  ∀ d, (∀ buf ∈ c.carved pool d,
      (commandFreeList s d).count buf = 1 ∧ s.live.count (commandPacket buf d) = 0 ∨
        (commandFreeList s d).count buf = 0 ∧ s.live.count (commandPacket buf d) = 1) ∧
    ∀ buf, buf ∈ commandFreeList s d ∨ commandPacket buf d ∈ s.live → buf ∈ c.carved pool d

theorem Conserved.atRest (h : Conserved c pool x) (hsize : 0 < c.rxMaxSize) (hover : x.deinit ≠ .ended)
    (hcalls : x.calls = []) : AtRest c pool x.mem := by
  intro d
  have hcount : ∀ buf, (commandFreeList x.mem d).count buf + x.mem.live.count (commandPacket buf d) =
      (c.carved pool d).count buf := by
    intro buf
    have hc := h.count hover d buf
    rw [hcalls] at hc
    simp only [restingBlock, hasBlockAll, List.map_nil, List.sum_nil] at hc
    omega
  constructor
  · intro buf hbuf
    have hone := List.count_eq_one_of_mem (carved_nodup hsize pool d) hbuf
    have hc := hcount buf
    omega
  · intro buf hbuf
    refine List.count_pos_iff.mp ?_
    rw [← hcount buf]
    obtain hfree | hlive := hbuf
    · exact Nat.add_pos_left (List.count_pos_iff.mpr hfree) _
    · exact Nat.add_pos_right _ (List.count_pos_iff.mpr hlive)

/-- **Reserved blocks are conserved**, in every run of a session. -/
theorem blocks_conserved (c : Config) (pool : Dir → Nat) (tr : List ReserveEvent) (x : Reserve)
    (hsize : 0 < c.rxMaxSize) (hr : Run (Reserve.Step c) (.init c pool) tr x) :
    (x.deinit ≠ .ended → x.calls = [] → AtRest c pool x.mem) ∧
    (x.deinit ≠ .ended → ∀ d k buf rest, CommandRequest c d k → commandFreeList x.mem d = buf :: rest →
      ∀ (i : Ctx) (o₁ o₂ o₃ : Outside), o₂.fits = true → Run (Reserve.Step c) x (threeSteps i k o₁ o₂ o₃)
        { x with
          mem := { setCommandFreeList x.mem rest d with live := commandPacket buf d :: x.mem.live } }) ∧
    ∀ y, x.Step c .poll y → ∀ d, pool d ≠ 0 → pool d ∈ y.freed →
      (commandFreeList x.mem d).Perm (c.carved pool d) := by
  have h : Conserved c pool x := hr.inv (.init c pool) fun _ _ _ h hs => h.step hs
  refine ⟨fun hover => h.atRest hsize hover, fun hover d k buf rest hk hl i o₁ o₂ o₃ hfits =>
    takes_block hover hk hl i o₁ o₂ o₃ hfits, fun y hy d hp hfreed => ?_⟩
  obtain ⟨hover, hcase⟩ := Reserve.next_poll hy
  have hnone := h.freed hover
  obtain ⟨i, rfl⟩ | ⟨-, -, hkept | ⟨hdrained, -⟩⟩ := hcase
  · exact absurd (hnone ▸ hfreed) List.not_mem_nil
  · exact absurd ((hkept.trans hnone) ▸ hfreed) List.not_mem_nil
  · exact h.whole hover hdrained hp

/-- Two commands, the second too large for its block, which goes back; the deinit looks, sleeps while the
first packet is freed, and looks again. -/
def commandSession : List ReserveEvent :=
  threeSteps .thread (.allocTx .command 0 64 0) ⟨0, true⟩ ⟨0, true⟩ ⟨0, true⟩ ++
    threeSteps .thread (.allocRx .command 1600 0) ⟨0, true⟩ ⟨0, false⟩ ⟨0, true⟩ ++
    [.own (.step .thread 0 ⟨0x9000, true⟩), .own (.step .thread 0 ⟨0, true⟩), .deinit, .poll,
      .own (.call .thread (.free ⟨0x1000, .txCommand⟩)), .own (.step .thread 0 ⟨0, true⟩),
      .own (.step .thread 0 ⟨0, true⟩)]

/-- The pools of that session. -/
def twoPools : Dir → Nat
  | .tx => 0x1000
  | .rx => 0x2000

/-- All blocks are back, in another order. -/
theorem blocks_conserved_session : ∃ x,
    Run (Reserve.Step threeBlocks) (.init threeBlocks twoPools) commandSession x ∧
      commandFreeList x.mem .tx = [0x1160, 0x1000] ∧ AtRest threeBlocks twoPools x.mem := by
  have hfold : (commandSession.foldlM (Reserve.next threeBlocks) (.init threeBlocks twoPools)).any
      (fun x => x.deinit != .ended && x.calls.isEmpty && commandFreeList x.mem .tx == [0x1160, 0x1000]) =
        true := by decide
  obtain ⟨x, hr, hx⟩ := Run.ofFold_any (fun _ _ _ h => h) hfold
  obtain ⟨hx, hlist⟩ := Bool.and_eq_true_iff.mp hx
  obtain ⟨hover, hcalls⟩ := Bool.and_eq_true_iff.mp hx
  exact ⟨x, hr, eq_of_beq hlist,
    (blocks_conserved threeBlocks twoPools commandSession x (by decide) hr).1 (bne_iff_ne.mp hover)
      (List.isEmpty_iff.mp hcalls)⟩

end MmHalow.Pkt
