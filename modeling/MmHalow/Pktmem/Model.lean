import MmHalow.Lib.Preempt

/-!
# Packet memory

Data packets come from the driver's heap and are counted; commands take a reserved block where
one is free. Every call is a program of atomic steps on the shared `pktmem`: an atomic operation,
a critical section, a heap call or a callback is one step.

| source                           | here                                          |
|----------------------------------|-----------------------------------------------|
| `mm_halow_pkt_size_ok`           | `pktSizeOk`                                   |
| `mmhal_wlan_alloc_mmpkt_for_tx`  | `allocMmpktForTx`, then `advance`             |
| `mmhal_wlan_alloc_mmpkt_for_rx`  | `allocMmpktForRx`, then `advance`             |
| `mm_halow_pool_alloc`            | `poolTake`, `poolInit`, `poolBack`            |
| `mm_halow_tx_data_free`, `mm_halow_rx_data_free` | `fetchSub`, `heapFree`, `unpause…` |
| `mm_halow_tx_command_free`, `mm_halow_rx_command_free` | `commandFree`           |

`live` lists the packets handed out and not yet given to their `free_mmpkt`. What comes from
outside (`Outside`) is the answer of `mmpkt_alloc_on_heap` and whether `mmpkt_init_buf` accepts a
reserved block.

* `advance_account`: a step keeps a counter equal to the live packets and what the calls under way
  still owe it.
-/

namespace MmHalow.Pkt

open MmHalow.Lib

/-- The build's pool sizes and the SDK's packet limits. -/
structure Config where
  /-- `MM_HALOW_TX_BLOCKS`. -/
  txBlocks : Nat
  /-- `MM_HALOW_RX_BLOCKS`. -/
  rxBlocks : Nat
  /-- `MMHAL_WLAN_MMPKT_TX_MAX_SIZE`. -/
  txMaxSize : UInt32
  /-- `MMHAL_WLAN_MMPKT_RX_MAX_SIZE`. -/
  rxMaxSize : UInt32
  /-- The bounds the source's `#error` checks. -/
  three_le : 3 ≤ txBlocks
  two_le : 2 ≤ rxBlocks

/-- `MM_HALOW_TX_PAUSE_THRESHOLD`. -/
def Config.txPauseThreshold (c : Config) : Int := c.txBlocks - 1

/-- `MM_HALOW_TX_UNPAUSE_THRESHOLD`. -/
def Config.txUnpauseThreshold (c : Config) : Int := c.txBlocks - 2

/-- The smallest pool. -/
def threeBlocks : Config := ⟨3, 2, 1600, 1600, by decide, by decide⟩

/-- Transmit or receive. -/
inductive Dir where
  | tx
  | rx
  deriving Repr, DecidableEq

/-- The `pkt_class` of a request. -/
inductive PktClass where
  | data
  | command
  deriving Repr, DecidableEq

/-- The `ops` of a packet: which `free_mmpkt` it goes back through; `heap` is the one
`mmpkt_alloc_on_heap` sets itself. -/
inductive PktOps where
  | txCommand
  | rxCommand
  | txData
  | rxData
  | heap
  deriving Repr, DecidableEq

structure Packet where
  addr : Nat
  ops : PktOps
  deriving Repr, DecidableEq

/-- `mm_halow_pktmem_t`. -/
structure Pktmem where
  txDataAllocated : Int
  txDataPaused : Bool
  rxDataAllocated : Int
  txCommandFreeList : List Nat
  rxCommandFreeList : List Nat
  deriving Repr, DecidableEq

/-- The globals, with the packets handed out and the calls made of `tx_flow_control_cb`. -/
structure State where
  pktmem : Pktmem
  live : List Packet
  txFlowControlCbs : Nat
  deriving Repr, DecidableEq

/-- The answers from outside the driver: what `mmpkt_alloc_on_heap` returns, and whether
`mmpkt_init_buf` accepts the block. -/
structure Outside where
  heap : Nat
  fits : Bool
  deriving Repr, DecidableEq

/-- Where a call stands. -/
inductive Pc where
  | poolTake (d : Dir)
  | poolInit (d : Dir) (buf : Nat)
  | poolBack (d : Dir) (buf : Nat)
  | fetchAdd (d : Dir)
  | giveBack (d : Dir)
  | heapAlloc (d : Dir)
  | commandHeap
  | pauseCheck (pkt : Nat)
  | pauseSet (pkt : Nat)
  | pauseCb (pkt : Nat)
  | commandFree (d : Dir) (buf : Nat)
  | fetchSub (d : Dir) (pkt : Nat)
  | heapFree (d : Dir) (pkt : Nat)
  | unpauseCheck
  | unpauseSet
  | unpauseCb
  | ret (pkt : Option Packet)
  | asserted
  deriving Repr, DecidableEq

/-- The calls on packet memory. -/
inductive Call where
  | allocTx (cls : PktClass) (spaceAtStart spaceAtEnd metadataLength : UInt32)
  | allocRx (cls : PktClass) (capacity metadataLength : UInt32)
  | free (pkt : Packet)
  deriving Repr, DecidableEq

/-- `mm_halow_pkt_size_ok`. -/
def pktSizeOk (spaceAtStart spaceAtEnd metadataLength max : UInt32) : Bool :=
  spaceAtStart ≤ max && spaceAtEnd ≤ max && metadataLength ≤ max

/-- Where `mmhal_wlan_alloc_mmpkt_for_tx` goes after its size check. -/
def allocMmpktForTx (c : Config) (cls : PktClass)
    (spaceAtStart spaceAtEnd metadataLength : UInt32) : Pc :=
  if ¬ pktSizeOk spaceAtStart spaceAtEnd metadataLength c.txMaxSize then .ret none
  else if cls = .command then .poolTake .tx
  else .fetchAdd .tx

/-- Where `mmhal_wlan_alloc_mmpkt_for_rx` goes after its size check. -/
def allocMmpktForRx (c : Config) (cls : PktClass) (capacity metadataLength : UInt32) : Pc :=
  if ¬ pktSizeOk 0 capacity metadataLength c.rxMaxSize then .ret none
  else if cls = .command then .poolTake .rx
  else .fetchAdd .rx

/-- The `free_mmpkt` of a packet. -/
def freeMmpkt (pkt : Packet) : Pc :=
  match pkt.ops with
  | .txCommand => .commandFree .tx pkt.addr
  | .rxCommand => .commandFree .rx pkt.addr
  | .txData => .fetchSub .tx pkt.addr
  | .rxData => if pkt.addr ≠ 0 then .fetchSub .rx pkt.addr else .ret none
  | .heap => .ret none

/-- The reserved blocks of a direction that are free. -/
def commandFreeList (s : State) : Dir → List Nat
  | .tx => s.pktmem.txCommandFreeList
  | .rx => s.pktmem.rxCommandFreeList

def setCommandFreeList (s : State) (l : List Nat) : Dir → State
  | .tx => { s with pktmem := { s.pktmem with txCommandFreeList := l } }
  | .rx => { s with pktmem := { s.pktmem with rxCommandFreeList := l } }

/-- `tx_data_allocated` or `rx_data_allocated`. -/
def dataAllocated (s : State) : Dir → Int
  | .tx => s.pktmem.txDataAllocated
  | .rx => s.pktmem.rxDataAllocated

def addDataAllocated (s : State) (n : Int) : Dir → State
  | .tx => { s with pktmem := { s.pktmem with txDataAllocated := s.pktmem.txDataAllocated + n } }
  | .rx => { s with pktmem := { s.pktmem with rxDataAllocated := s.pktmem.rxDataAllocated + n } }

def setTxDataPaused (s : State) (b : Bool) : State :=
  { s with pktmem := { s.pktmem with txDataPaused := b } }

def txFlowControlCb (s : State) : State := { s with txFlowControlCbs := s.txFlowControlCbs + 1 }

/-- `MM_HALOW_TX_BLOCKS` or `MM_HALOW_RX_BLOCKS`. -/
def Config.blocks (c : Config) : Dir → Int
  | .tx => c.txBlocks
  | .rx => c.rxBlocks

/-- Where a command request goes that got no reserved block: a transmit request to the data path,
a receive request to the heap, uncounted. -/
def noBlock : Dir → Pc
  | .tx => .fetchAdd .tx
  | .rx => .commandHeap

/-- The packet in a reserved block. -/
def commandPacket (buf : Nat) : Dir → Packet
  | .tx => ⟨buf, .txCommand⟩
  | .rx => ⟨buf, .rxCommand⟩

/-- One atomic step of a call; `none` when it has returned. -/
def advance (c : Config) (o : Outside) (s : State) : Pc → State × Option Pc
  | .poolTake d =>
    match commandFreeList s d with
    | [] => (s, some (noBlock d))
    | buf :: rest => (setCommandFreeList s rest d, some (.poolInit d buf))
  | .poolInit d buf =>
    if o.fits then (s, some (.ret (some (commandPacket buf d)))) else (s, some (.poolBack d buf))
  | .poolBack d buf =>
    -- too big for a reserved block: through `free_mmpkt`, back to the list's end
    (setCommandFreeList s (commandFreeList s d ++ [buf]) d, some (noBlock d))
  | .commandHeap => (s, some (.ret (if o.heap = 0 then none else some ⟨o.heap, .heap⟩)))
  | .fetchAdd d =>
    (addDataAllocated s 1 d,
      some (if c.blocks d ≤ dataAllocated s d then .giveBack d else .heapAlloc d))
  | .giveBack d => (addDataAllocated s (-1) d, some (.ret none))
  | .heapAlloc d =>
    (s, some (if o.heap = 0 then .giveBack d
      else match d with
        | .tx => .pauseCheck o.heap
        | .rx => .ret (some ⟨o.heap, .rxData⟩)))
  | .pauseCheck pkt =>
    (s, some (if c.txPauseThreshold < s.pktmem.txDataAllocated then .pauseSet pkt
      else .ret (some ⟨pkt, .txData⟩)))
  | .pauseSet pkt =>
    (setTxDataPaused s true,
      some (if s.pktmem.txDataPaused then .ret (some ⟨pkt, .txData⟩) else .pauseCb pkt))
  | .pauseCb pkt => (txFlowControlCb s, some (.ret (some ⟨pkt, .txData⟩)))
  | .commandFree d buf =>
    (setCommandFreeList s (commandFreeList s d ++ [buf]) d, some (.ret none))
  | .fetchSub d pkt =>
    (addDataAllocated s (-1) d,
      some (if d = .tx ∧ ¬ 0 < dataAllocated s d then .asserted else .heapFree d pkt))
  | .heapFree d _ =>
    (s, some (match d with
      | .tx => .unpauseCheck
      | .rx => .ret none))
  | .unpauseCheck =>
    (s, some (if s.pktmem.txDataAllocated < c.txUnpauseThreshold then .unpauseSet else .ret none))
  | .unpauseSet =>
    (setTxDataPaused s false, some (if s.pktmem.txDataPaused then .unpauseCb else .ret none))
  | .unpauseCb => (txFlowControlCb s, some (.ret none))
  | .ret pkt => ({ s with live := pkt.toList ++ s.live }, none)
  -- `mmosal_impl_assert` does not return
  | .asserted => (s, some .asserted)

/-- A call begins. A packet is given to its `free_mmpkt` once. -/
def startCall (c : Config) (s : State) : Call → Option (State × Pc)
  | .allocTx cls spaceAtStart spaceAtEnd metadataLength =>
    some (s, allocMmpktForTx c cls spaceAtStart spaceAtEnd metadataLength)
  | .allocRx cls capacity metadataLength => some (s, allocMmpktForRx c cls capacity metadataLength)
  | .free pkt =>
    if pkt ∈ s.live then some ({ s with live := s.live.erase pkt }, freeMmpkt pkt) else none

/-- The calls as programs of atomic steps, in either context. -/
def pktProg (c : Config) : Prog State Pc Call Outside where
  start := fun _ s k => startCall c s k
  next := fun _ s p o => advance c o s p

/-- `mmhal_wlan_pktmem_init`, with the reserved blocks it carved. -/
def pktmemInit (txBlocks rxBlocks : List Nat) : State := ⟨⟨0, false, 0, txBlocks, rxBlocks⟩, [], 0⟩

/-- Packet memory between init and the first call. -/
def pktStart (txBlocks rxBlocks : List Nat) : Two State Pc :=
  ⟨pktmemInit txBlocks rxBlocks, none, none⟩

/-! ## What the calls under way owe the counters -/

/-- The `ops` of the packets that are counted. -/
def dataOps : Dir → PktOps
  | .tx => .txData
  | .rx => .rxData

/-- The counted packets handed out. -/
def liveData (d : Dir) (s : State) : Nat := s.live.countP fun p => p.ops = dataOps d

/-- What a call at `p` has added to the counter of `d` for no live packet. -/
def owed (d : Dir) : Pc → Int
  | .giveBack d' => if d' = d then 1 else 0
  | .heapAlloc d' => if d' = d then 1 else 0
  | .pauseCheck _ => if d = .tx then 1 else 0
  | .pauseSet _ => if d = .tx then 1 else 0
  | .pauseCb _ => if d = .tx then 1 else 0
  | .fetchSub d' _ => if d' = d then 1 else 0
  | .ret (some p) => if p.ops = dataOps d then 1 else 0
  | _ => 0

theorem owed_nonneg (d : Dir) (p : Pc) : 0 ≤ owed d p := by
  unfold owed
  split <;> try split
  all_goals decide

variable {c : Config} {o : Outside} {s t : State} {p : Pc} {q : Option Pc} {d : Dir}

theorem owed_allocMmpktForTx {cls : PktClass} {a b m : UInt32} :
    owed d (allocMmpktForTx c cls a b m) = 0 := by
  unfold allocMmpktForTx
  split_ifs <;> rfl

theorem owed_allocMmpktForRx {cls : PktClass} {n m : UInt32} :
    owed d (allocMmpktForRx c cls n m) = 0 := by
  unfold allocMmpktForRx
  split_ifs <;> rfl

/-- The packet is a receive packet at no address, which no allocation hands out. -/
def Packet.Null (pkt : Packet) : Prop := pkt.ops = .rxData ∧ pkt.addr = 0

theorem owed_freeMmpkt {pkt : Packet} (h : d = .rx → ¬ pkt.Null) :
    owed d (freeMmpkt pkt) = if pkt.ops = dataOps d then 1 else 0 := by
  obtain ⟨a, k⟩ := pkt
  cases k with
  | rxData =>
    by_cases ha : a = 0
    · cases d with
      | tx => simp [freeMmpkt, owed, ha, dataOps]
      | rx => exact absurd ⟨rfl, ha⟩ (h rfl)
    · cases d <;> simp [freeMmpkt, owed, ha, dataOps]
  | _ => cases d <;> rfl

/-- A packet handed out is live from now on. -/
theorem liveData_hand (pkt : Option Packet) :
    (liveData d { s with live := pkt.toList ++ s.live } : Int) = liveData d s + owed d (.ret pkt) := by
  cases pkt with
  | none => simp [liveData, owed]
  | some pkt =>
    by_cases h : pkt.ops = dataOps d
    · simp [liveData, owed, h]
    · simp [liveData, owed, h]

/-- A packet given back is no longer live. -/
theorem liveData_erase {pkt : Packet} (h : pkt ∈ s.live) :
    (liveData d { s with live := s.live.erase pkt } : Int) + (if pkt.ops = dataOps d then 1 else 0) =
      liveData d s := by
  have hcount := (List.perm_cons_erase h).countP_eq fun p => p.ops = dataOps d
  rw [List.countP_cons] at hcount
  unfold liveData
  rw [hcount]
  by_cases hk : pkt.ops = dataOps d
  · simp [hk]
  · simp [hk]

/-- What beginning a call does. -/
theorem startCall_cases {k : Call} (h : startCall c s k = some (t, p)) :
    (t = s ∧ ∃ cls a b m, p = allocMmpktForTx c cls a b m) ∨
      (t = s ∧ ∃ cls n m, p = allocMmpktForRx c cls n m) ∨
      ∃ pkt ∈ s.live, t = { s with live := s.live.erase pkt } ∧ p = freeMmpkt pkt := by
  cases k with
  | allocTx cls a b m =>
    obtain ⟨rfl, rfl⟩ := Prod.mk.inj (Option.some.inj h)
    exact Or.inl ⟨rfl, cls, a, b, m, rfl⟩
  | allocRx cls n m =>
    obtain ⟨rfl, rfl⟩ := Prod.mk.inj (Option.some.inj h)
    exact Or.inr (Or.inl ⟨rfl, cls, n, m, rfl⟩)
  | free pkt =>
    by_cases hp : pkt ∈ s.live
    · rw [startCall, if_pos hp] at h
      obtain ⟨rfl, rfl⟩ := Prod.mk.inj (Option.some.inj h)
      exact Or.inr (Or.inr ⟨pkt, hp, rfl, rfl⟩)
    · rw [startCall, if_neg hp] at h
      exact nomatch h

/-- A call that begins owes a counter what it took from the live packets. -/
theorem start_account {k : Call} (h : startCall c s k = some (t, p))
    (hnull : d = .rx → ∀ pkt ∈ s.live, ¬ pkt.Null) :
    dataAllocated t d - liveData d t - owed d p = dataAllocated s d - liveData d s := by
  obtain ⟨rfl, cls, a, b, m, rfl⟩ | ⟨rfl, cls, n, m, rfl⟩ | ⟨pkt, hp, rfl, rfl⟩ := startCall_cases h
  · rw [owed_allocMmpktForTx, Int.sub_zero]
  · rw [owed_allocMmpktForRx, Int.sub_zero]
  · have hlive := liveData_erase (d := d) hp
    rw [owed_freeMmpkt fun hd => hnull hd pkt hp]
    have hcounter : dataAllocated { s with live := s.live.erase pkt } d = dataAllocated s d := by
      cases d <;> rfl
    omega

theorem owed_noBlock (d' : Dir) : owed d (noBlock d') = 0 := by
  cases d' <;> rfl

theorem liveData_congr (h : t.live = s.live) : liveData d t = liveData d s := by
  unfold liveData
  rw [h]

@[simp] theorem setCommandFreeList_live (l : List Nat) (d : Dir) :
    (setCommandFreeList s l d).live = s.live := by
  cases d <;> rfl

@[simp] theorem setCommandFreeList_allocated (l : List Nat) (d : Dir) :
    (setCommandFreeList s l d).pktmem.txDataAllocated = s.pktmem.txDataAllocated := by
  cases d <;> rfl

@[simp] theorem setCommandFreeList_dataAllocated (l : List Nat) (d' : Dir) :
    dataAllocated (setCommandFreeList s l d') d = dataAllocated s d := by
  cases d' <;> cases d <;> rfl

@[simp] theorem addDataAllocated_live (n : Int) (d : Dir) :
    (addDataAllocated s n d).live = s.live := by
  cases d <;> rfl

theorem addDataAllocated_dataAllocated (n : Int) (d' : Dir) :
    dataAllocated (addDataAllocated s n d') d = dataAllocated s d + if d' = d then n else 0 := by
  cases d' <;> cases d <;> simp [dataAllocated, addDataAllocated]

theorem owed_heapAlloc {d' : Dir} {pkt : Nat} :
    owed d (if pkt = 0 then .giveBack d'
      else match d' with
        | .tx => .pauseCheck pkt
        | .rx => .ret (some ⟨pkt, .rxData⟩)) = owed d (.heapAlloc d') := by
  by_cases h : pkt = 0
  · simp [owed, h]
  · cases d' <;> cases d <;> simp [owed, h, dataOps]

/-- What a call owes after a step, nothing where it has returned. -/
def owedCtx (d : Dir) (q : Option Pc) : Int := q.elim 0 (owed d)

/-- **Accounting**: a step keeps the difference of a counter and the live packets equal to what the
call owes. -/
theorem advance_account (h : advance c o s p = (t, q)) :
    dataAllocated t d - liveData d t - owedCtx d q = dataAllocated s d - liveData d s - owed d p := by
  cases p with
  | poolTake d' =>
    cases hl : commandFreeList s d' with
    | nil =>
      simp only [advance, hl, Prod.mk.injEq] at h
      obtain ⟨rfl, rfl⟩ := h
      exact congrArg _ (owed_noBlock d')
    | cons buf rest =>
      simp only [advance, hl, Prod.mk.injEq] at h
      obtain ⟨rfl, rfl⟩ := h
      rw [setCommandFreeList_dataAllocated, liveData_congr (setCommandFreeList_live _ _)]
      rfl
  | poolInit d' buf =>
    by_cases hf : o.fits = true
    · simp only [advance, if_pos hf, Prod.mk.injEq] at h
      obtain ⟨rfl, rfl⟩ := h
      cases d' <;> cases d <;> rfl
    · simp only [advance, if_neg hf, Prod.mk.injEq] at h
      obtain ⟨rfl, rfl⟩ := h
      rfl
  | poolBack d' buf =>
    obtain ⟨rfl, rfl⟩ := Prod.mk.inj h
    rw [setCommandFreeList_dataAllocated, liveData_congr (setCommandFreeList_live _ _)]
    exact congrArg _ (owed_noBlock d')
  | commandHeap =>
    obtain ⟨rfl, rfl⟩ := Prod.mk.inj h
    by_cases h0 : o.heap = 0
    · simp [owedCtx, owed, h0]
    · cases d <;> simp [owedCtx, owed, h0, dataOps]
  | fetchAdd d' =>
    obtain ⟨rfl, rfl⟩ := Prod.mk.inj h
    rw [liveData_congr (addDataAllocated_live _ _), addDataAllocated_dataAllocated]
    have howed : owedCtx d (some (if c.blocks d' ≤ dataAllocated s d' then Pc.giveBack d'
        else .heapAlloc d')) = if d' = d then 1 else 0 := by
      split_ifs <;> simp [owedCtx, owed, *]
    rw [howed]
    simp only [owed]
    omega
  | giveBack d' =>
    obtain ⟨rfl, rfl⟩ := Prod.mk.inj h
    rw [liveData_congr (addDataAllocated_live _ _), addDataAllocated_dataAllocated]
    simp only [owedCtx, Option.elim, owed]
    split_ifs <;> omega
  | heapAlloc d' =>
    obtain ⟨rfl, rfl⟩ := Prod.mk.inj h
    exact congrArg _ owed_heapAlloc
  | pauseCheck pkt =>
    obtain ⟨rfl, rfl⟩ := Prod.mk.inj h
    split_ifs <;> cases d <;> rfl
  | pauseSet pkt =>
    obtain ⟨rfl, rfl⟩ := Prod.mk.inj h
    split_ifs <;> cases d <;> rfl
  | pauseCb pkt =>
    obtain ⟨rfl, rfl⟩ := Prod.mk.inj h
    cases d <;> rfl
  | commandFree d' buf =>
    obtain ⟨rfl, rfl⟩ := Prod.mk.inj h
    rw [setCommandFreeList_dataAllocated, liveData_congr (setCommandFreeList_live _ _)]
    rfl
  | fetchSub d' pkt =>
    obtain ⟨rfl, rfl⟩ := Prod.mk.inj h
    rw [liveData_congr (addDataAllocated_live _ _), addDataAllocated_dataAllocated]
    have howed : owedCtx d (some (if d' = .tx ∧ ¬ 0 < dataAllocated s d' then Pc.asserted
        else .heapFree d' pkt)) = 0 := by
      split_ifs <;> rfl
    rw [howed]
    simp only [owed]
    split_ifs <;> omega
  | heapFree d' pkt =>
    obtain ⟨rfl, rfl⟩ := Prod.mk.inj h
    cases d' <;> rfl
  | unpauseCheck =>
    obtain ⟨rfl, rfl⟩ := Prod.mk.inj h
    split_ifs <;> rfl
  | unpauseSet =>
    obtain ⟨rfl, rfl⟩ := Prod.mk.inj h
    split_ifs <;> cases d <;> rfl
  | unpauseCb =>
    obtain ⟨rfl, rfl⟩ := Prod.mk.inj h
    cases d <;> rfl
  | ret pkt =>
    obtain ⟨rfl, rfl⟩ := Prod.mk.inj h
    rw [liveData_hand]
    have hcounter : dataAllocated { s with live := pkt.toList ++ s.live } d = dataAllocated s d := by
      cases d <;> rfl
    rw [hcounter]
    simp only [owedCtx, Option.elim]
    omega
  | asserted =>
    obtain ⟨rfl, rfl⟩ := Prod.mk.inj h
    rfl

theorem owedCtx_nonneg (d : Dir) (p : Option Pc) : 0 ≤ owedCtx d p := by
  cases p with
  | none => exact Int.le_refl 0
  | some p => exact owed_nonneg d p

end MmHalow.Pkt
