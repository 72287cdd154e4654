import MmHalow.Ctrl.Transmit
import MmHalow.Lib.Bytes
import MmHalow.Lib.Coop

/-!
# The bytes of a frame (`mm_halow_send_ethernet`)

A frame of several segments is sent by way of `mm_halow_tx_buf`, of which there is one. A call gives
way to other code where it asks whether the transmit path is ready, where it polls and inside
`mmwlan_tx_pkt`: there any number of further calls may be made, inside task context or outside, and
go on in any order. `mmwlan_alloc_mmpkt_for_tx` and `mmpkt_append_data` run no other code of the
driver. What else runs may change the driver's data at will, the buffer and the pointer to it
included; a frame is lwIP's and stays as it is.

| source                                       | here                       |
|----------------------------------------------|----------------------------|
| `struct pbuf`, a buffer that is none         | `Pbuf`, `Buf`              |
| `pbuf_copy_partial`                          | `PbufCopy`                 |
| `mm_halow_send_ethernet`                     | `sendProg`, from `Pc.check` |
| `const uint8_t *data`                        | `Data`                     |
| its `return` statements                      | `Exit`, `Exit.ret`         |

`mm_halow_poll_func` inside the wait is `Pc.poll`: it runs the tasks or, where the driver is not up,
already serviced or has nothing to do, it returns. Calls in task context do not poll.

* `keeps_sending`: what a call has put out and holds, wherever it stands.
* `frames_apart`: **each packet handed over holds the frame of its own call, none is handed over twice
  and a call that returns before `mmwlan_tx_pkt` hands over none.**
* `returns_sendEthernet`: what a call returns by itself is what `sendEthernet` says.
-/

namespace MmHalow.Ctrl.Tx

open MmHalow.Lib MmHalow.Lib.Bytes

/-! ## Frames -/

/-- A chain of lwIP's: the payload of the first segment and those of the segments after it. -/
structure Pbuf where
  payload : List UInt8
  next : List (List UInt8)
  deriving Repr, DecidableEq

/-- All bytes of the chain. -/
def Pbuf.bytes (p : Pbuf) : List UInt8 := p.payload ++ p.next.flatten

/-- `p->tot_len`. -/
def Pbuf.totLen (p : Pbuf) : Nat := p.bytes.length

/-- `buf` and `is_pbuf`. -/
inductive Buf where
  | pbuf (p : Pbuf)
  | plain (bytes : List UInt8)
  deriving Repr, DecidableEq

/-- The bytes that a buffer has. -/
def Buf.bytes : Buf → List UInt8
  | .pbuf p => p.bytes
  | .plain bytes => bytes

/-- A call: what it is to send, of which there are `len` bytes, and whether a driver task makes it. -/
structure Send where
  len : Nat
  buf : Buf
  task : Bool
  covered : len ≤ buf.bytes.length
  deriving Repr, DecidableEq

/-- The frame of a call: the first `len` bytes. -/
def Send.frame (f : Send) : List UInt8 := f.buf.bytes.take f.len

/-- lwIP's `pbuf_copy_partial` from the start of a chain. -/
structure PbufCopy where
  /-- `copyPartial m p dst len` is the memory after `len` bytes of `p` were copied to `dst`. -/
  copyPartial : Mem → Pbuf → Nat → Nat → Mem
  /-- It copies the bytes of the chain. -/
  copies : ∀ m p dst len, len ≤ p.totLen → bytes (copyPartial m p dst len) dst len = p.bytes.take len

/-! ## The call -/

/-- The driver's data, in which `mm_halow_tx_buf` is an address and zero is `NULL`. -/
structure Shared where
  txBuf : Nat
  mem : Mem
  rxDeferred : Bool
  pollRequested : Bool

/-- Where `data` points: at the payload of the frame itself or into memory. -/
inductive Data where
  | own (payload : List UInt8)
  | there (addr : Nat)
  deriving Repr, DecidableEq

/-- The `len` bytes at `data`. -/
def Data.read (m : Mem) (len : Nat) : Data → List UInt8
  | .own payload => payload.take len
  | .there addr => bytes m addr len

/-- The `return` statements. -/
inductive Exit where
  | invalid
  | timedOut
  | congested
  | noPacket
  | failed (status : Status)
  | queued
  deriving Repr, DecidableEq

/-- What they return. -/
def Exit.ret : Exit → Ret
  | .invalid => .err .einval
  | .timedOut => .err .eagain
  | .congested => .err .eagain
  | .noPacket => .err .eagain
  | .failed status => statusToErrno status
  | .queued => .ok

/-- The call returns there before `mmwlan_tx_pkt`. -/
def Exit.early : Exit → Bool
  | .failed _ => false
  | .queued => false
  | _ => true

/-- Where a call stands. -/
inductive Pc where
  | check
  | begin
  | ready (start : UInt32)
  | late (start : UInt32)
  | poll (start : UInt32)
  | undefer
  | readyInTask
  | linearise
  | alloc (data : Data)
  | append (data : Data)
  | txPkt (pkt : List UInt8)
  | status
  | request
  | returned (e : Exit)
  deriving Repr, DecidableEq

/-- What morselib and the clock say at a step. -/
structure Said where
  ready : Status
  now : UInt32
  pkt : Bool
  tx : Status
  deriving Repr, DecidableEq

/-- **`mm_halow_send_ethernet`**, one step at a time. -/
def next (lw : PbufCopy) (mtu : Nat) (f : Send) (s : Shared) (pc : Pc) (o : Said) :
    Shared × Pc × List (List UInt8) :=
  match pc with
  | .check =>
    if txBufSize mtu < f.len ∨ s.txBuf = 0 then (s, .returned .invalid, [])
    else if f.task then (s, .readyInTask, [])
    else (s, .begin, [])
  | .begin => ({ s with rxDeferred := true }, .ready o.now, [])
  | .ready start => if o.ready = .success then (s, .undefer, []) else (s, .late start, [])
  | .late start =>
    if txReadyMs ≤ o.now - start then ({ s with rxDeferred := false }, .returned .timedOut, [])
    else (s, .poll start, [])
  | .poll start => (s, .ready start, [])
  | .undefer => ({ s with rxDeferred := false }, .linearise, [])
  | .readyInTask => if o.ready = .success then (s, .linearise, []) else (s, .returned .congested, [])
  | .linearise =>
    match f.buf with
    | .pbuf p =>
      if p.next = [] then (s, .alloc (.own p.payload), [])
      else ({ s with mem := lw.copyPartial s.mem p s.txBuf f.len }, .alloc (.there s.txBuf), [])
    | .plain bytes => (s, .alloc (.own bytes), [])
  | .alloc data => if o.pkt then (s, .append data, []) else (s, .returned .noPacket, [])
  | .append data => (s, .txPkt (data.read s.mem f.len), [])
  | .txPkt pkt => (s, .status, [pkt])
  | .status => if o.tx = .success then (s, .request, []) else (s, .returned (.failed o.tx), [])
  | .request => ({ s with pollRequested := true }, .returned .queued, [])
  | .returned e => (s, .returned e, [])

/-- Whether other code may run where a call stands: in `mmwlan_tx_wait_until_ready`, in the poll, in
`mmwlan_tx_pkt` and after the call. -/
def Pc.rests : Pc → Bool
  | .ready _ => true
  | .poll _ => true
  | .readyInTask => true
  | .status => true
  | .returned _ => true
  | _ => false

/-- The calls, whose packets are what they put out. -/
def sendProg (lw : PbufCopy) (mtu : Nat) : Coop Shared Send Pc Said (List UInt8) :=
  ⟨.check, next lw mtu, Pc.rests⟩

/-! ## What a call keeps -/

/-- What a call has handed over and holds. The data of a frame is in place from where it is chosen to
where it is appended, and nothing rests in between. -/
def Sending (f : Send) (s : Shared) : Pc → List (List UInt8) → Prop
  | .alloc data, out => out = [] ∧ data.read s.mem f.len = f.frame
  | .append data, out => out = [] ∧ data.read s.mem f.len = f.frame
  | .txPkt pkt, out => out = [] ∧ pkt = f.frame
  | .status, out => out = [f.frame]
  | .request, out => out = [f.frame]
  | .returned e, out => out = if e.early then [] else [f.frame]
  | _, out => out = []

variable {lw : PbufCopy} {mtu : Nat} {f : Send} {s t : Shared} {pc : Pc} {out : List (List UInt8)}
  {o : Said}

/-- **The data that is chosen is the frame**: the payload where there is one segment, the buffer right
after the copy where there are more. -/
theorem sending_linearise (h : out = []) :
    Sending f (next lw mtu f s .linearise o).1 (next lw mtu f s .linearise o).2.1 out := by
  obtain ⟨len, buf, task, covered⟩ := f
  cases buf with
  | plain bytes => exact ⟨h, rfl⟩
  | pbuf p =>
    by_cases hone : p.next = []
    · have hbytes : p.payload = p.bytes := by simp [Pbuf.bytes, hone]
      simp only [next, if_pos hone]
      exact ⟨h, congrArg (List.take len) hbytes⟩
    · simp only [next, if_neg hone]
      exact ⟨h, lw.copies s.mem p s.txBuf len covered⟩

/-- A call that rests holds no data. -/
theorem sending_of_rests (hrest : pc.rests = true) (h : Sending f s pc out) : Sending f t pc out := by
  cases pc <;> first
    | exact h
    | exact Bool.noConfusion hrest

/-- One step. -/
theorem sending_next (h : Sending f s pc out) :
    Sending f (next lw mtu f s pc o).1 (next lw mtu f s pc o).2.1 (out ++ (next lw mtu f s pc o).2.2) := by
  cases pc with
  | check =>
    simp only [next]
    split_ifs <;> simpa [Sending, Exit.early] using h
  | «begin» => simpa [next, Sending] using h
  | ready start =>
    simp only [next]
    split_ifs <;> simpa [Sending] using h
  | late start =>
    simp only [next]
    split_ifs <;> simpa [Sending, Exit.early] using h
  | poll start => simpa [next, Sending] using h
  | undefer => simpa [next, Sending] using h
  | readyInTask =>
    simp only [next]
    split_ifs <;> simpa [Sending, Exit.early] using h
  | linearise =>
    have hout : (next lw mtu f s .linearise o).2.2 = [] := by
      simp only [next]
      split
      · split_ifs <;> rfl
      · rfl
    rw [hout, List.append_nil]
    exact sending_linearise h
  | alloc data =>
    simp only [next]
    split_ifs
    · simpa [Sending] using h
    · simpa [Sending, Exit.early] using h.1
  | append data => simpa [next, Sending] using h
  | txPkt pkt =>
    obtain ⟨rfl, rfl⟩ := h
    rfl
  | status =>
    simp only [next]
    split_ifs <;> simpa [Sending, Exit.early] using h
  | request => simpa [next, Sending, Exit.early] using h
  | returned e => simpa [next, Sending] using h

/-- **What a call keeps by itself.** -/
theorem keeps_sending : (sendProg lw mtu).Keeps Sending where
  entry _ _ := rfl
  next _ _ _ _ _ h := sending_next h
  rests _ _ _ _ _ hrest h := sending_of_rests hrest h

/-- What a call has handed over is nothing or its frame. -/
theorem Sending.out_eq (h : Sending f s pc out) : out = [] ∨ out = [f.frame] := by
  cases pc with
  | alloc => exact .inl h.1
  | append => exact .inl h.1
  | txPkt => exact .inl h.1
  | status => exact .inr h
  | request => exact .inr h
  | returned e =>
    obtain h | h : e.early = true ∧ out = [] ∨ e.early = false ∧ out = [f.frame] := by
      cases he : e.early <;> simpa [Sending, he] using h
    · exact .inl h.2
    · exact .inr h.2
  | _ => exact .inl h

/-! ## A call by itself -/

/-- A call that goes on by itself while it is told `os`. -/
def alone (lw : PbufCopy) (mtu : Nat) (f : Send) (x : Shared × Pc) (os : List Said) : Shared × Pc :=
  os.foldl (fun x o => ((next lw mtu f x.1 x.2 o).1, (next lw mtu f x.1 x.2 o).2.1)) x

/-- What the call has returned. -/
def Pc.ret : Pc → Option Ret
  | .returned e => some e.ret
  | _ => none

/-- What the wait is told in its turns, and the rest of the call where the path becomes ready. -/
def turnsSaid (pkt : Bool) (tx : Status) (start : UInt32) : List Turn → List Said
  | [] => []
  | t :: ts =>
    let o : Said := ⟨t.ready, t.now, pkt, tx⟩
    if t.ready = .success then List.replicate 8 o
    else if txReadyMs ≤ t.now - start then [o, o]
    else [o, o, o] ++ turnsSaid pkt tx start ts

/-- What a call is told. -/
def callerSaid (pkt : Bool) (tx : Status) : Caller → List Said
  | .task ready => List.replicate 8 ⟨ready, 0, pkt, tx⟩
  | .outside start turns => [⟨.success, start, pkt, tx⟩, ⟨.success, start, pkt, tx⟩] ++
    turnsSaid pkt tx start turns

/-- A call is made in the context that its caller is in. -/
def Send.madeBy (f : Send) : Caller → Prop
  | .task _ => f.task = true
  | .outside _ _ => f.task = false

theorem alone_cons {x : Shared × Pc} {os : List Said} :
    alone lw mtu f x (o :: os) =
      alone lw mtu f ((next lw mtu f x.1 x.2 o).1, (next lw mtu f x.1 x.2 o).2.1) os := rfl

theorem alone_returned {e : Exit} (os : List Said) :
    (alone lw mtu f (s, .returned e) os).2.ret = some e.ret := by
  induction os with
  | nil => rfl
  | cons o os ih => exact ih

/-- The part after the wait is `queueFrame`. -/
theorem alone_linearise (o : Said) :
    (alone lw mtu f (s, .linearise) (List.replicate 6 o)).2.ret = some (queueFrame o.pkt o.tx) := by
  obtain ⟨t, data, ht⟩ : ∃ t data, next lw mtu f s .linearise o = (t, .alloc data, []) := by
    simp only [next]
    split
    · split_ifs
      · exact ⟨_, _, rfl⟩
      · exact ⟨_, _, rfl⟩
    · exact ⟨_, _, rfl⟩
  obtain ⟨ready, now, pkt, tx⟩ := o
  simp only [List.replicate_succ, alone_cons, ht]
  cases pkt
  · exact alone_returned _
  · by_cases htx : tx = .success
    · subst htx
      rfl
    · simp only [next, if_true, if_neg htx, queueFrame, Bool.not_true, Bool.false_eq_true, if_false]
      exact alone_returned _

/-- The wait, and what comes after it where the path becomes ready. -/
theorem alone_turns {b : Build} {st : State} {start : UInt32} {pkt : Bool} {tx : Status}
    (turns : List Turn) :
    (alone lw mtu f (s, .ready start) (turnsSaid pkt tx start turns)).2.ret =
      (txWait b mtu start turns st).1.ret (queueFrame pkt tx) := by
  induction turns generalizing s st with
  | nil => rfl
  | cons t ts ih =>
    unfold turnsSaid txWait
    by_cases hready : t.ready = .success
    · simp only [if_pos hready]
      rw [List.replicate_succ, alone_cons, List.replicate_succ, alone_cons]
      simp only [next, if_pos hready]
      exact alone_linearise _
    simp only [if_neg hready]
    by_cases hlate : txReadyMs ≤ t.now - start
    · simp only [if_pos hlate, alone_cons, next, if_neg hready]
      rfl
    · simp only [if_neg hlate, List.cons_append, List.nil_append, alone_cons, next, if_neg hready]
      exact ih

/-- The check at the start, where it fails. -/
theorem alone_check_invalid (hg : txBufSize mtu < f.len ∨ s.txBuf = 0) (os : List Said) :
    (alone lw mtu f (s, .check) (o :: os)).2.ret = some (.err .einval) := by
  have hnext : next lw mtu f s .check o = (s, .returned .invalid, []) := by
    simp only [next, if_pos hg]
  rw [alone_cons, hnext]
  exact alone_returned os

/-- The check at the start, where it goes on. -/
theorem alone_check (hg : ¬ (txBufSize mtu < f.len ∨ s.txBuf = 0)) (os : List Said) :
    alone lw mtu f (s, .check) (o :: os) =
      alone lw mtu f (s, if f.task then .readyInTask else .begin) os := by
  have hnext : next lw mtu f s .check o = (s, if f.task then .readyInTask else .begin, []) := by
    simp only [next, if_neg hg]
    split_ifs <;> rfl
  rw [alone_cons, hnext]

/-- **What a call returns by itself** is what `sendEthernet` says. -/
theorem returns_sendEthernet {b : Build} {st : State} {pkt : Bool} {tx : Status} {caller : Caller}
    (hbuf : st.txBuf = decide (s.txBuf ≠ 0)) (hby : f.madeBy caller) :
    (alone lw mtu f (s, .check) (callerSaid pkt tx caller)).2.ret =
      (sendEthernet b mtu f.len pkt tx st caller).ret := by
  have hguard : (decide (txBufSize mtu < f.len) || !st.txBuf) = true ↔
      txBufSize mtu < f.len ∨ s.txBuf = 0 := by
    simp [hbuf]
  by_cases hg : txBufSize mtu < f.len ∨ s.txBuf = 0
  · cases caller with
    | task ready =>
      simp only [callerSaid, sendEthernet, sendFromTask, if_pos (hguard.mpr hg), List.replicate_succ]
      exact alone_check_invalid hg _
    | outside start turns =>
      simp only [callerSaid, sendEthernet, if_pos (hguard.mpr hg)]
      exact alone_check_invalid hg _
  have hpass := mt hguard.mp hg
  cases caller with
  | task ready =>
    have htask : f.task = true := hby
    simp only [callerSaid, sendEthernet, sendFromTask, if_neg hpass, List.replicate_succ]
    rw [alone_check hg, if_pos htask, alone_cons]
    by_cases hready : ready = .success
    · simp only [next, hready, ne_eq, not_true_eq_false, if_false]
      exact alone_linearise ⟨.success, 0, pkt, tx⟩
    · simp only [next, ne_eq, hready, not_false_eq_true, if_true]
      exact alone_returned _
  | outside start turns =>
    have htask : ¬ f.task = true := by
      rw [show f.task = false from hby]
      exact Bool.false_ne_true
    simp only [callerSaid, sendEthernet, if_neg hpass, List.cons_append, List.nil_append]
    rw [alone_check hg, if_neg htask, alone_cons]
    exact alone_turns turns

/-! ## All calls -/

/-- **Transmitted frames are not mixed up**: in every run, whichever calls are made inside others and
wherever each stands, each packet that a call has handed to `mmwlan_tx_pkt` holds the first `len` bytes
of its own frame, there is at most one of them, and a call has returned with one exactly where it
returns from `mmwlan_tx_pkt` or after it. -/
theorem frames_apart (lw : PbufCopy) (mtu : Nat) (s : Shared)
    (tr : List (CoopEvent Shared Send Said)) (x : Together Shared Send Pc (List UInt8))
    (hr : Run (sendProg lw mtu).Step ⟨s, []⟩ tr x) :
    ∀ c ∈ x.calls, (∀ pkt ∈ c.out, pkt = c.call.buf.bytes.take c.call.len) ∧ c.out.length ≤ 1 ∧
      ∀ e, c.pc = .returned e → (c.out = [] ↔ e.early = true) := by
  intro c hc
  have h : Sending c.call x.shared c.pc c.out := keeps_sending.run hr c hc
  refine ⟨fun pkt hpkt => ?_, ?_, fun e he => ?_⟩
  · rcases h.out_eq with hout | hout
    · rw [hout] at hpkt
      exact absurd hpkt List.not_mem_nil
    · rw [hout] at hpkt
      exact List.mem_singleton.mp hpkt
  · rcases h.out_eq with hout | hout <;> simp [hout]
  · rw [he] at h
    have hout : c.out = if e.early then [] else [c.call.frame] := h
    cases hearly : e.early <;> simp [hout, hearly]

/-- Two segments, sent from outside. -/
def segmented : Send := ⟨3, .pbuf ⟨[1], [[2, 3]]⟩, false, by decide⟩

/-- Two segments, of which a task answers with the first three bytes. -/
def reply : Send := ⟨3, .pbuf ⟨[7, 8], [[9, 4]]⟩, true, by decide⟩

/-- `pbuf_copy_partial` as lwIP has it. -/
def copyChain : PbufCopy where
  copyPartial m p dst len := writeBytes m dst (p.bytes.take len)
  copies m p dst len h := by
    have hlen : (p.bytes.take len).length = len := List.length_take_of_le h
    have hread := bytes_writeBytes m dst (p.bytes.take len)
    rwa [hlen] at hread

/-- What is said where all is well, and where the path is not ready. -/
def well : Said := ⟨.success, 0, true, .success⟩
def busy : Said := ⟨.unavailable, 0, true, .success⟩

/-- The first call waits and polls, the task sends from inside the poll, and the first call goes on. -/
def nested : List (CoopEvent Shared Send Said) :=
  [.call segmented, .step 0 well, .step 0 well, .step 0 busy, .step 0 well, .call reply] ++
    List.replicate 8 (.step 1 well) ++ List.replicate 9 (.step 0 well)

/-- Both packets are out, each with its own bytes. -/
def bothSent (x : Together Shared Send Pc (List UInt8)) : Bool :=
  x.calls.map (fun c => (c.pc, c.out)) =
    [(.returned .queued, [[1, 2, 3]]), (.returned .queued, [[7, 8, 9]])]

/-- Both calls copy through the one buffer and each packet is its own. -/
theorem frames_apart_nested : ∃ x, Run (sendProg copyChain 1500).Step
    ⟨⟨4096, fun _ => 0, false, false⟩, []⟩ nested x ∧ bothSent x = true ∧
    ∀ c ∈ x.calls, (∀ pkt ∈ c.out, pkt = c.call.buf.bytes.take c.call.len) ∧ c.out.length ≤ 1 ∧
      ∀ e, c.pc = .returned e → (c.out = [] ↔ e.early = true) := by
  have hrun : ∃ x, Run (sendProg copyChain 1500).Step ⟨⟨4096, fun _ => 0, false, false⟩, []⟩ nested x ∧
      bothSent x = true := Run.ofFold_any (fun _ _ _ => Coop.step_of_exec) (by decide +kernel)
  obtain ⟨x, hr, hx⟩ := hrun
  exact ⟨x, hr, hx, frames_apart copyChain 1500 ⟨4096, fun _ => 0, false, false⟩ nested x hr⟩

end MmHalow.Ctrl.Tx
