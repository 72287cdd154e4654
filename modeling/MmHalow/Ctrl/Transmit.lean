import MmHalow.Ctrl.System

/-!
# Transmit (`mm_halow_send_ethernet`) and the lwIP it is called from

lwIP hands a frame down with its own lists half walked. Outside task context the driver then waits
for the transmit path, at most `MM_HALOW_TX_READY_MS`, and polls as it waits: morselib's tasks run
inside lwIP. `rx_deferred` makes `mm_halow_cb_process_ethernet` drop what they receive. Nothing holds
the link state back: `mm_halow_link_state_cb` and `mm_halow_fatal_error_cb` go through to
`netif_set_link_up`, `netif_set_link_down` and `dhcp_start`.

| source                                  | here                         |
|-----------------------------------------|------------------------------|
| `mm_halow_send_ethernet`                | `sendEthernet`               |
| its wait                                | `txWait`, of `Turn`s         |
| `mm_halow_poll_func` inside it          | `Turn.delivered`, `deliverAll` |
| the part after the wait                 | `queueFrame`                 |

The bytes of the frame are left out. A callback may have lwIP answer with frames of its own, which
come back in task context (`TaskSend`).

* `rxDeferred_sent`: receive is deferred exactly while the wait goes on.
* `wait_quiet_iff`: **no callback delivered in the wait calls into lwIP exactly where none reports a
  link state other than the interface has at the start, nor a fatal error with the link up.**
* `wait_disturbed`: the link goes down during a wait.
-/

namespace MmHalow.Ctrl

/-- `MM_HALOW_TX_READY_MS`. -/
def txReadyMs : UInt32 := 250

/-- `MM_HALOW_TX_BUF_SIZE`: `MM_HALOW_MTU` and `SIZEOF_ETH_HDR`. -/
def txBufSize (mtu : Nat) : Nat := mtu + 14

/-- What becomes of a frame once there is somewhere for it to go: `mmwlan_alloc_mmpkt_for_tx` gives a
packet or not, and `mmwlan_tx_pkt` a status. -/
def queueFrame (pkt : Bool) (tx : Status) : Ret :=
  if !pkt then .err .eagain else statusToErrno tx

/-! ## In task context -/

/-- A frame that lwIP sends from inside a driver task. -/
structure TaskSend where
  len : Nat
  ready : Status
  pkt : Bool
  tx : Status
  deriving Repr, DecidableEq

/-- `mm_halow_send_ethernet` in task context, where it does not wait. -/
def sendFromTask (mtu : Nat) (f : TaskSend) (s : State) : Ret × State :=
  if txBufSize mtu < f.len || !s.txBuf then (.err .einval, s)
  else if f.ready ≠ .success then (.err .eagain, s)
  else (queueFrame f.pkt f.tx, s)

/-! ## The wait -/

/-- The calls that a callback makes into lwIP. -/
def Callback.lwipCalls (b : Build) (s : State) : Callback → List LwipCall
  | .fatal => (b.lwip.setLinkDown .sta s.lwip).1
  | .link up =>
    if up then (b.lwip.setLinkUp b.glue .sta s.lwip).1 else (b.lwip.setLinkDown .sta s.lwip).1
  | .rx alloc => s.lwip.processEthernet .sta s.rxDeferred alloc
  | _ => []

/-- A callback, and the frames that lwIP sends from inside it. -/
structure Delivery where
  cb : Callback
  sends : List TaskSend
  deriving Repr, DecidableEq

/-- A turn of the wait: whether the transmit path is ready, the tick where it is not, and what the
poll delivers where there is time left. -/
structure Turn where
  ready : Status
  now : UInt32
  delivered : List Delivery
  deriving Repr, DecidableEq

/-- The callbacks delivered, each with the calls it made into lwIP. -/
abbrev Log := List (Callback × List LwipCall)

/-- The state after a delivery. -/
def Delivery.after (b : Build) (mtu : Nat) (d : Delivery) (s : State) : State :=
  d.sends.foldl (fun s f => (sendFromTask mtu f s).2) (callback b d.cb s)

/-- The tasks that a poll runs deliver these callbacks. -/
def deliverAll (b : Build) (mtu : Nat) : List Delivery → State → State × Log
  | [], s => (s, [])
  | d :: ds, s =>
    let r := deliverAll b mtu ds (d.after b mtu s)
    (r.1, (d.cb, d.cb.lwipCalls b s) :: r.2)

/-- How a wait stands. -/
inductive WaitEnd where
  | waiting
  | ready
  | timedOut
  deriving Repr, DecidableEq

/-- The loop of `mm_halow_send_ethernet`, with the turns so far. -/
def txWait (b : Build) (mtu : Nat) (start : UInt32) : List Turn → State → WaitEnd × State × Log
  | [], s => (.waiting, s, [])
  | t :: ts, s =>
    if t.ready = .success then (.ready, { s with rxDeferred := false }, [])
    else if txReadyMs ≤ t.now - start then (.timedOut, { s with rxDeferred := false }, [])
    else
      let r := deliverAll b mtu t.delivered s
      let w := txWait b mtu start ts r.1
      (w.1, w.2.1, r.2 ++ w.2.2)

/-- The context of a call: a driver task, with what morselib says of its transmit path there, or not,
with the tick at its start and the turns of its wait so far. -/
inductive Caller where
  | task (ready : Status)
  | outside (start : UInt32) (turns : List Turn)
  deriving Repr, DecidableEq

/-- What a call has done: its result once it has returned, the state, and what was delivered. -/
structure Sent where
  ret : Option Ret
  state : State
  log : Log

/-- What the wait returns, or lets the rest of the call return. -/
def WaitEnd.ret (queued : Ret) : WaitEnd → Option Ret
  | .waiting => none
  | .ready => some queued
  | .timedOut => some (.err .eagain)

/-- **`mm_halow_send_ethernet`.** -/
def sendEthernet (b : Build) (mtu len : Nat) (pkt : Bool) (tx : Status) (s : State) : Caller → Sent
  | .task ready =>
    let r := sendFromTask mtu ⟨len, ready, pkt, tx⟩ s
    ⟨some r.1, r.2, []⟩
  | .outside start turns =>
    if txBufSize mtu < len || !s.txBuf then ⟨some (.err .einval), s, []⟩
    else
      let w := txWait b mtu start turns { s with rxDeferred := true }
      ⟨w.1.ret (queueFrame pkt tx), w.2.1, w.2.2⟩

/-- The turns in which the wait polls. -/
def polled (start : UInt32) (turns : List Turn) : List Turn :=
  turns.takeWhile fun t => t.ready ≠ .success && t.now - start < txReadyMs

/-- The callback reports nothing that the interface's link does not show. -/
def Callback.keepsLink (linkUp : Bool) : Callback → Bool
  | .fatal => !linkUp
  | .link up => up == linkUp
  | _ => true

/-- The link of the station's interface is up. -/
def State.staLinkUp (s : State) : Bool := s.lwip.netifIsLinkUp .sta

variable {b : Build} {mtu : Nat} {start : UInt32} {s : State} {cb : Callback} {d : Delivery}

/-! ## One delivery -/

/-- A frame sent in task context leaves the driver's state alone. -/
theorem sendFromTask_state (f : TaskSend) : (sendFromTask mtu f s).2 = s := by
  unfold sendFromTask
  split_ifs <;> rfl

/-- What a callback does is all a delivery does. -/
theorem Delivery.after_eq : d.after b mtu s = callback b d.cb s := by
  unfold Delivery.after
  generalize callback b d.cb s = s'
  induction d.sends with
  | nil => rfl
  | cons f fs ih =>
    rw [List.foldl_cons, sendFromTask_state]
    exact ih

theorem callback_rxDeferred : (callback b cb s).rxDeferred = s.rxDeferred := by
  cases cb with
  | scanRx r =>
    simp only [callback, scanRxCb]
    split_ifs <;> rfl
  | _ => rfl

/-- Bringing up a link calls lwIP where it is down. -/
theorem setLinkUp_calls {f : LwipFns} {glue : LwipBuild} {itf : Itf} {n : Lwip} :
    (f.setLinkUp glue itf n).1 = [] ↔ n.netifIsLinkUp itf = true := by
  unfold LwipFns.setLinkUp
  by_cases hup : n.netifIsLinkUp itf = true
  · rw [if_pos hup]
    exact iff_of_true rfl hup
  · rw [if_neg hup]
    dsimp only
    refine iff_of_false ?_ hup
    split
    · exact List.cons_ne_nil _ _
    · exact List.cons_ne_nil _ _

/-- **While receive is deferred**, the callbacks that call into lwIP are those that report another
link. -/
theorem lwipCalls_eq_nil_iff (h : s.rxDeferred = true) :
    cb.lwipCalls b s = [] ↔ cb.keepsLink s.staLinkUp = true := by
  cases cb with
  | rx alloc => simp [Callback.lwipCalls, Callback.keepsLink, Lwip.processEthernet, h]
  | fatal =>
    cases hl : s.lwip.netifIsLinkUp .sta <;>
      simp [Callback.lwipCalls, Callback.keepsLink, State.staLinkUp, LwipFns.setLinkDown, hl]
  | link up =>
    cases up with
    | false =>
      cases hl : s.lwip.netifIsLinkUp .sta <;>
        simp [Callback.lwipCalls, Callback.keepsLink, State.staLinkUp, LwipFns.setLinkDown, hl]
    | true =>
      simp only [Callback.lwipCalls, Callback.keepsLink, State.staLinkUp, if_true, setLinkUp_calls]
      cases s.lwip.netifIsLinkUp .sta <;> decide
  | _ => exact iff_of_true rfl rfl

/-- A callback that reports no other link leaves the link. -/
theorem staLinkUp_callback (h : cb.keepsLink s.staLinkUp = true) :
    (callback b cb s).staLinkUp = s.staLinkUp := by
  cases cb with
  | fatal =>
    have hl : s.lwip.netifIsLinkUp .sta = false := by
      simpa [Callback.keepsLink, State.staLinkUp] using h
    exact b.documented.setLinkDown.self.trans hl.symm
  | link up =>
    have hl : up = s.lwip.netifIsLinkUp .sta := eq_of_beq h
    cases up with
    | false => exact b.documented.setLinkDown.self.trans hl
    | true => exact b.documented.setLinkUp.self.trans hl
  | scanRx r =>
    simp only [callback, scanRxCb]
    split_ifs <;> rfl
  | _ => rfl

/-! ## A poll and a wait -/

/-- No callback of the log called into lwIP. -/
def Log.Quiet (l : Log) : Prop := ∀ e ∈ l, e.2 = []

/-- The callbacks report no link but this. -/
def KeepLink (linkUp : Bool) (ds : List Delivery) : Prop := ∀ d ∈ ds, d.cb.keepsLink linkUp = true

theorem deliverAll_rxDeferred (ds : List Delivery) :
    (deliverAll b mtu ds s).1.rxDeferred = s.rxDeferred := by
  induction ds generalizing s with
  | nil => rfl
  | cons d ds ih =>
    simp only [deliverAll]
    rw [ih, Delivery.after_eq, callback_rxDeferred]

theorem staLinkUp_deliverAll {ds : List Delivery} (h : KeepLink s.staLinkUp ds) :
    (deliverAll b mtu ds s).1.staLinkUp = s.staLinkUp := by
  induction ds generalizing s with
  | nil => rfl
  | cons d ds ih =>
    obtain ⟨hd, hds⟩ := List.forall_mem_cons.mp h
    have hkeep : (d.after b mtu s).staLinkUp = s.staLinkUp := by
      rw [Delivery.after_eq]
      exact staLinkUp_callback hd
    simp only [deliverAll]
    rw [ih, hkeep]
    rw [hkeep]
    exact hds

/-- **A poll is quiet** where its callbacks report no other link. -/
theorem deliverAll_quiet_iff (h : s.rxDeferred = true) (ds : List Delivery) :
    Log.Quiet (deliverAll b mtu ds s).2 ↔ KeepLink s.staLinkUp ds := by
  induction ds generalizing s with
  | nil => exact iff_of_true nofun nofun
  | cons d ds ih =>
    have hafter : (d.after b mtu s).rxDeferred = true := by
      rw [Delivery.after_eq, callback_rxDeferred, h]
    simp only [Log.Quiet, KeepLink, deliverAll, List.forall_mem_cons, lwipCalls_eq_nil_iff h]
    refine and_congr_right fun hd => ?_
    have hkeep : (d.after b mtu s).staLinkUp = s.staLinkUp := by
      rw [Delivery.after_eq]
      exact staLinkUp_callback hd
    rw [← hkeep]
    exact ih hafter

/-- **A wait is quiet** where each of its polls is. -/
theorem txWait_quiet_iff (h : s.rxDeferred = true) (turns : List Turn) :
    Log.Quiet (txWait b mtu start turns s).2.2 ↔
      ∀ t ∈ polled start turns, KeepLink s.staLinkUp t.delivered := by
  induction turns generalizing s with
  | nil => exact iff_of_true nofun nofun
  | cons t ts ih =>
    unfold txWait polled
    split_ifs with hready htime
    · simp [Log.Quiet, hready]
    · have hout : ¬ t.now - start < txReadyMs := UInt32.not_lt.mpr htime
      simp [Log.Quiet, hout]
    · have hin : t.now - start < txReadyMs := UInt32.not_le.mp htime
      rw [List.takeWhile_cons_of_pos (by simp [hready, hin])]
      simp only [Log.Quiet, List.forall_mem_append, List.forall_mem_cons]
      rw [show (∀ e ∈ (deliverAll b mtu t.delivered s).2, e.2 = []) ↔
        KeepLink s.staLinkUp t.delivered from deliverAll_quiet_iff h t.delivered]
      refine and_congr_right fun hkeep => ?_
      rw [← staLinkUp_deliverAll hkeep]
      exact ih ((deliverAll_rxDeferred t.delivered).trans h)

/-- Receive stays deferred as long as the wait goes on, and no longer. -/
theorem txWait_rxDeferred (h : s.rxDeferred = true) (turns : List Turn) :
    (txWait b mtu start turns s).2.1.rxDeferred =
      decide ((txWait b mtu start turns s).1 = .waiting) := by
  induction turns generalizing s with
  | nil => exact h
  | cons t ts ih =>
    unfold txWait
    split_ifs
    · rfl
    · rfl
    · exact ih ((deliverAll_rxDeferred t.delivered).trans h)

/-! ## A call -/

/-- **Receive is deferred during the wait only**: a call made without it ends without it, whether the
path became ready or the time ran out. -/
theorem rxDeferred_sent {len : Nat} {pkt : Bool} {tx : Status} {turns : List Turn}
    (h : s.rxDeferred = false) :
    let sent := sendEthernet b mtu len pkt tx s (.outside start turns)
    sent.state.rxDeferred = sent.ret.isNone := by
  dsimp only [sendEthernet]
  split_ifs
  · exact h
  · dsimp only
    rw [txWait_rxDeferred rfl]
    cases (txWait b mtu start turns { s with rxDeferred := true }).1 <;> rfl

/-- **No re-entry of lwIP from a transmit wait**: the callbacks delivered in it make no call into lwIP
exactly where, of those that its polls deliver, none reports a link state that the interface does not
have at the start and none a fatal error with the link up. -/
theorem wait_quiet_iff (b : Build) (mtu len : Nat) (pkt : Bool) (tx : Status) (s : State)
    (start : UInt32) (turns : List Turn) :
    (∀ e ∈ (sendEthernet b mtu len pkt tx s (.outside start turns)).log, e.2 = []) ↔
      (len ≤ txBufSize mtu → s.txBuf = true → ∀ t ∈ polled start turns, ∀ d ∈ t.delivered,
        d.cb.keepsLink s.staLinkUp = true) := by
  unfold sendEthernet
  dsimp only
  split_ifs with hguard
  · refine iff_of_true nofun fun hlen hbuf => ?_
    rw [Bool.or_eq_true, decide_eq_true_iff, hbuf] at hguard
    exact absurd hguard (by simpa using hlen)
  · obtain ⟨hlen, hbuf⟩ : len ≤ txBufSize mtu ∧ s.txBuf = true := by
      simpa using hguard
    refine (txWait_quiet_iff rfl turns).trans ?_
    exact ⟨fun h _ _ => h, fun h => h hlen hbuf⟩

/-- A station with its link up. -/
def linkedStation : State :=
  { State.init (Build.small false) noNetifs with
    initted := true
    booted := true
    txBuf := true
    linkStatus := .noip
    lwip := ⟨[.halow .sta], fun _ => true, fun _ => true, some (.halow .sta)⟩ }

/-- The transmit path is not ready, and morselib reports that the link is down. -/
def lossInWait : List Turn := [⟨.unavailable, 1, [⟨.link false, []⟩]⟩]

/-- The station's link goes down during the wait, and lwIP is told so inside the call it made. -/
theorem wait_disturbed :
    ¬ ∀ e ∈ (sendEthernet (Build.small false) 1500 60 true .success linkedStation
      (.outside 0 lossInWait)).log, e.2 = [] := by
  intro h
  have hlog : (sendEthernet (Build.small false) 1500 60 true .success linkedStation
      (.outside 0 lossInWait)).log = [(.link false, [.setLinkDown .sta])] := by decide
  rw [hlog] at h
  exact absurd (h _ (List.mem_singleton.mpr rfl)) (List.cons_ne_nil _ _)

end MmHalow.Ctrl
