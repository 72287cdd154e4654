import MmHalow.Pktmem.Account

/-!
# Packets that outlive their session

A shutdown of the transceiver ends a session of packet memory and the next boot begins another, in the
same heap. `mmhal_wlan_pktmem_deinit` waits a while for the packets to come back; what has not by then
is left to its owner, whose `free_mmpkt` acts on the `pktmem` of whatever session there is.

* `Kept.step`: a session keeps its account, and no block of a pool that was left comes to its lists, as
  long as the packets that outlive a session are freed where that does no harm (`Apt`).
* `stale_frees_harmless`: **in every run whose frees of such packets are apt, the assertion holds, the
  counters are those of the session's own packets, and no old block is on its free lists.**
* `stale_free_asserts`: a transmit packet that is freed after the deinit fails the assertion.
-/

namespace MmHalow.Pkt

open MmHalow.Lib

/-! ## Sessions -/

/-- Packet memory over sessions: the shared state with the packets of the session, if there is one, its
reserved blocks and the calls in progress; the packets that have outlived their sessions and the frees
of these in progress; and the blocks of the pools that were left where they are. -/
structure Sessions where
  mem : State
  up : Bool
  carved : Dir → List Nat
  calls : List Active
  stale : List Packet
  frees : List Pc
  old : List Nat

/-- What happens next: a session begins or ends, a call of the session begins or takes a step, the
free of a packet that has outlived its session begins or takes a step. -/
inductive SessionEvent where
  | init (txBlocks rxBlocks : List Nat)
  | deinit (gaveUp : Bool)
  | own (e : ManyEvent Call Outside)
  | stale (pkt : Packet)
  | free (i : Nat) (o : Outside)
  deriving DecidableEq

/-- `drained` in `mmhal_wlan_pktmem_deinit`. -/
def Sessions.drained (x : Sessions) : Bool :=
  x.mem.pktmem.txDataAllocated == 0 && x.mem.pktmem.rxDataAllocated == 0 &&
    (x.carved .tx == [] || x.mem.pktmem.txCommandFreeList.length == (x.carved .tx).length) &&
      (x.carved .rx == [] || x.mem.pktmem.rxCommandFreeList.length == (x.carved .rx).length)

/-- `mmhal_wlan_pktmem_init`, whose pools are new blocks of the heap. -/
def Sessions.init (x : Sessions) (txBlocks rxBlocks : List Nat) : Sessions :=
  { x with
    mem := pktmemInit txBlocks rxBlocks
    up := true
    carved := fun
      | .tx => txBlocks
      | .rx => rxBlocks }

/-- `mmhal_wlan_pktmem_deinit`: what it waited for in vain outlives the session. -/
def Sessions.deinit (x : Sessions) (gaveUp : Bool) : Sessions :=
  { x with
    mem := pktmemInit [] []
    up := false
    carved := fun _ => []
    stale := x.mem.live ++ x.stale
    old := if gaveUp then x.carved .tx ++ x.carved .rx ++ x.old else x.old }

/-- The effect of an event; `none` where it cannot happen. Sessions begin and end with no call in
progress. -/
def Sessions.next (c : Config) (x : Sessions) : SessionEvent → Option Sessions
  | .init txBlocks rxBlocks =>
    if x.up = false ∧ x.frees = [] ∧ ∀ buf ∈ txBlocks ++ rxBlocks, buf ∉ x.old then
      some (x.init txBlocks rxBlocks)
    else none
  | .deinit gaveUp =>
    if x.up = true ∧ x.calls.isEmpty = true ∧ x.frees = [] ∧ (gaveUp || x.drained) = true then
      some (x.deinit gaveUp)
    else none
  | .own e =>
    if x.up = true then
      ((activeProg c).execAny ⟨x.mem, x.calls⟩ e).map fun m =>
        { x with mem := m.shared, calls := m.calls }
    else none
  | .stale pkt =>
    if pkt ∈ x.stale then
      some { x with stale := x.stale.erase pkt, frees := freeMmpkt pkt :: x.frees }
    else none
  | .free i o =>
    ((pktProg c).execAny ⟨x.mem, x.frees⟩ (.step .thread i o)).map fun m =>
      { x with mem := m.shared, frees := m.calls }

/-- The steps of sessions. -/
def Sessions.Step (c : Config) (x : Sessions) (e : SessionEvent) (y : Sessions) : Prop :=
  x.next c e = some y

/-- Before the first session. -/
def Sessions.blank : Sessions := ⟨pktmemInit [] [], false, fun _ => [], [], [], [], []⟩

/-- **Where freeing a packet that has outlived its session does no harm**: it came from the heap,
uncounted; or no session is there to be harmed, and the packet is no transmit data packet, whose free
asserts that the counter is positive. -/
def Apt (x : Sessions) : SessionEvent → Prop
  | .stale pkt => pkt.ops = .heap ∨ x.up = false ∧ pkt.ops ≠ .txData
  | _ => True

instance (x : Sessions) : (e : SessionEvent) → Decidable (Apt x e)
  | .stale _ => inferInstanceAs (Decidable (_ ∨ _))
  | .init _ _ => inferInstanceAs (Decidable True)
  | .deinit _ => inferInstanceAs (Decidable True)
  | .own _ => inferInstanceAs (Decidable True)
  | .free _ _ => inferInstanceAs (Decidable True)

/-! ## Reserved blocks -/

/-- The packet is in a reserved block. -/
def Packet.block (pkt : Packet) : Option Nat :=
  if pkt.ops = .txCommand ∨ pkt.ops = .rxCommand then some pkt.addr else none

/-- The reserved block that a call at `p` has. -/
def Pc.block : Pc → Option Nat
  | .poolInit _ buf => some buf
  | .poolBack _ buf => some buf
  | .commandFree _ buf => some buf
  | .ret (some pkt) => pkt.block
  | _ => none

/-- No reserved block is in `old`: none that is free, in a live packet or at hand in a call. -/
structure New (old : List Nat) (x : Many State Active) : Prop where
  free : ∀ d, ∀ buf ∈ commandFreeList x.shared d, buf ∉ old
  live : ∀ pkt ∈ x.shared.live, ∀ buf ∈ pkt.block, buf ∉ old
  calls : ∀ a ∈ x.calls, ∀ buf ∈ a.pc.block, buf ∉ old

variable {c : Config} {o : Outside} {s t : State} {p : Pc} {q : Option Pc} {d : Dir} {K : Nat → Prop}

@[simp] theorem commandFreeList_addDataAllocated (n : Int) (d' : Dir) :
    commandFreeList (addDataAllocated s n d') d = commandFreeList s d := by
  cases d' <;> cases d <;> rfl

theorem commandFreeList_set (l : List Nat) (d' : Dir) :
    commandFreeList (setCommandFreeList s l d') d = if d' = d then l else commandFreeList s d := by
  cases d' <;> cases d <;> rfl

/-- A free list that is set keeps what holds of its blocks. -/
theorem forall_set {l : List Nat} {d' : Dir} (h : ∀ d, ∀ buf ∈ commandFreeList s d, K buf)
    (hl : ∀ buf ∈ l, K buf) : ∀ d, ∀ buf ∈ commandFreeList (setCommandFreeList s l d') d, K buf := by
  intro d
  rw [commandFreeList_set]
  split
  · exact hl
  · exact h d

theorem none_block (h : p.block = none) : ∀ p' ∈ some p, ∀ buf ∈ p'.block, K buf := fun p' hp' buf hb => by
  obtain rfl := Option.some.inj hp'
  exact nomatch h.symm.trans hb

/-- **A step moves reserved blocks about**, and brings in none. -/
theorem advance_blocks (h : advance c o s p = (t, q)) (hs : ∀ d, ∀ buf ∈ commandFreeList s d, K buf)
    (hp : ∀ buf ∈ p.block, K buf) :
    (∀ d, ∀ buf ∈ commandFreeList t d, K buf) ∧ ∀ p' ∈ q, ∀ buf ∈ p'.block, K buf := by
  cases p with
  | poolTake d =>
    cases hl : commandFreeList s d with
    | nil =>
      simp only [advance, hl, Prod.mk.injEq] at h
      obtain ⟨rfl, rfl⟩ := h
      refine ⟨hs, fun p' hp' => ?_⟩
      obtain rfl := Option.some.inj hp'
      cases d <;> exact fun b hb => absurd hb (Option.not_mem_none b)
    | cons buf rest =>
      simp only [advance, hl, Prod.mk.injEq] at h
      obtain ⟨rfl, rfl⟩ := h
      have hbufs : ∀ b ∈ buf :: rest, K b := hl ▸ hs d
      refine ⟨forall_set hs fun b hb => hbufs b (List.mem_cons_of_mem _ hb), fun p' hp' b hb => ?_⟩
      obtain rfl := Option.some.inj hp'
      obtain rfl := Option.some.inj hb
      exact hbufs _ (List.mem_cons_self ..)
  | poolInit d buf =>
    by_cases hf : o.fits = true
    · simp only [advance, if_pos hf, Prod.mk.injEq] at h
      obtain ⟨rfl, rfl⟩ := h
      refine ⟨hs, fun p' hp' => ?_⟩
      obtain rfl := Option.some.inj hp'
      cases d <;> exact hp
    · simp only [advance, if_neg hf, Prod.mk.injEq] at h
      obtain ⟨rfl, rfl⟩ := h
      refine ⟨hs, fun p' hp' => ?_⟩
      obtain rfl := Option.some.inj hp'
      exact hp
  | poolBack d buf =>
    obtain ⟨rfl, rfl⟩ := Prod.mk.inj h
    refine ⟨forall_set hs fun b hb => ?_, fun p' hp' => ?_⟩
    · obtain hb | hb := List.mem_append.mp hb
      · exact hs d b hb
      · obtain rfl := List.mem_singleton.mp hb
        exact hp _ rfl
    · obtain rfl := Option.some.inj hp'
      cases d <;> exact fun b hb => absurd hb (Option.not_mem_none b)
  | commandFree d buf =>
    obtain ⟨rfl, rfl⟩ := Prod.mk.inj h
    refine ⟨forall_set hs fun b hb => ?_, fun p' hp' => ?_⟩
    · obtain hb | hb := List.mem_append.mp hb
      · exact hs d b hb
      · obtain rfl := List.mem_singleton.mp hb
        exact hp _ rfl
    · obtain rfl := Option.some.inj hp'
      exact fun b hb => absurd hb (Option.not_mem_none b)
  | commandHeap =>
    obtain ⟨rfl, rfl⟩ := Prod.mk.inj h
    refine ⟨hs, none_block ?_⟩
    split_ifs <;> rfl
  | fetchAdd d' =>
    obtain ⟨rfl, rfl⟩ := Prod.mk.inj h
    refine ⟨fun d => (commandFreeList_addDataAllocated _ _).symm ▸ hs d, none_block ?_⟩
    split_ifs <;> rfl
  | giveBack d' =>
    obtain ⟨rfl, rfl⟩ := Prod.mk.inj h
    exact ⟨fun d => (commandFreeList_addDataAllocated _ _).symm ▸ hs d, none_block rfl⟩
  | heapAlloc d' =>
    obtain ⟨rfl, rfl⟩ := Prod.mk.inj h
    refine ⟨hs, none_block ?_⟩
    split_ifs
    · rfl
    · cases d' <;> rfl
  | pauseCheck pkt =>
    obtain ⟨rfl, rfl⟩ := Prod.mk.inj h
    refine ⟨hs, none_block ?_⟩
    split_ifs <;> rfl
  | pauseSet pkt =>
    obtain ⟨rfl, rfl⟩ := Prod.mk.inj h
    refine ⟨fun d => by cases d; exacts [hs .tx, hs .rx], none_block ?_⟩
    split_ifs <;> rfl
  | pauseCb pkt =>
    obtain ⟨rfl, rfl⟩ := Prod.mk.inj h
    exact ⟨fun d => by cases d; exacts [hs .tx, hs .rx], none_block rfl⟩
  | fetchSub d' pkt =>
    obtain ⟨rfl, rfl⟩ := Prod.mk.inj h
    refine ⟨fun d => (commandFreeList_addDataAllocated _ _).symm ▸ hs d, none_block ?_⟩
    split_ifs <;> rfl
  | heapFree d' pkt =>
    obtain ⟨rfl, rfl⟩ := Prod.mk.inj h
    exact ⟨hs, none_block (by cases d' <;> rfl)⟩
  | unpauseCheck =>
    obtain ⟨rfl, rfl⟩ := Prod.mk.inj h
    refine ⟨hs, none_block ?_⟩
    split_ifs <;> rfl
  | unpauseSet =>
    obtain ⟨rfl, rfl⟩ := Prod.mk.inj h
    refine ⟨fun d => by cases d; exacts [hs .tx, hs .rx], none_block ?_⟩
    split_ifs <;> rfl
  | unpauseCb =>
    obtain ⟨rfl, rfl⟩ := Prod.mk.inj h
    exact ⟨fun d => by cases d; exacts [hs .tx, hs .rx], none_block rfl⟩
  | ret pkt =>
    obtain ⟨rfl, rfl⟩ := Prod.mk.inj h
    exact ⟨fun d => by cases d; exacts [hs .tx, hs .rx], fun p' hp' => absurd hp' (Option.not_mem_none p')⟩
  | asserted =>
    obtain ⟨rfl, rfl⟩ := Prod.mk.inj h
    exact ⟨hs, none_block rfl⟩

theorem block_freeMmpkt (pkt : Packet) : ∀ buf ∈ (freeMmpkt pkt).block, buf ∈ pkt.block := by
  obtain ⟨addr, ops⟩ := pkt
  cases ops with
  | rxData =>
    unfold freeMmpkt
    simp only
    split_ifs <;> exact nofun
  | txCommand => exact fun _ h => h
  | rxCommand => exact fun _ h => h
  | txData => exact nofun
  | heap => exact nofun

/-- A call that begins has a reserved block only from the packet that it frees. -/
theorem start_block {k : Call} (h : startCall c s k = some (t, p)) :
    t.pktmem = s.pktmem ∧ ∀ buf ∈ p.block, ∃ pkt ∈ s.live, buf ∈ pkt.block := by
  obtain ⟨rfl, cls, x, y, m, rfl⟩ | ⟨rfl, cls, n, m, rfl⟩ | ⟨pkt, hpkt, rfl, rfl⟩ := startCall_cases h
  · refine ⟨rfl, ?_⟩
    unfold allocMmpktForTx
    split_ifs <;> exact nofun
  · refine ⟨rfl, ?_⟩
    unfold allocMmpktForRx
    split_ifs <;> exact nofun
  · exact ⟨rfl, fun buf hbuf => ⟨pkt, hpkt, block_freeMmpkt pkt buf hbuf⟩⟩

theorem commandFreeList_congr (h : t.pktmem = s.pktmem) : commandFreeList t d = commandFreeList s d := by
  cases d <;> simp only [commandFreeList, h]

variable {old : List Nat}

/-- **The calls of a session bring in no old block.** -/
theorem New.step {x y : Many State Active} {e : ManyEvent Call Outside} (h : New old x)
    (hs : (activeProg c).AnyStep x e y) : New old y := by
  cases hs with
  | call hst =>
    obtain ⟨⟨t, p⟩, hcall, hr⟩ := Option.map_eq_some_iff.mp hst
    obtain ⟨rfl, rfl⟩ := Prod.mk.inj hr
    obtain ⟨hmem, hblock⟩ := start_block hcall
    refine ⟨fun d => ?_, fun pkt hpkt => h.live pkt ((start_live hcall).subset hpkt), ?_⟩
    · rw [commandFreeList_congr hmem]
      exact h.free d
    · refine List.forall_mem_cons.mpr ⟨fun buf hbuf => ?_, h.calls⟩
      obtain ⟨pkt, hpkt, hin⟩ := hblock buf hbuf
      exact h.live pkt hpkt buf hin
  | @step s t l r ctx a q o hst =>
    obtain ⟨rfl, rfl⟩ := Prod.mk.inj hst
    have ha : a ∈ l ++ a :: r := List.mem_append_right _ (List.mem_cons_self ..)
    obtain ⟨hfree, hnext⟩ := advance_blocks (K := (· ∉ old)) (o := o) rfl h.free (h.calls a ha)
    refine ⟨hfree, ?_, ?_⟩
    · cases hq : (advance c o s a.pc).2 with
      | some p =>
        rw [advance_live (Prod.ext rfl hq)]
        exact h.live
      | none =>
        obtain ⟨pkt, hpc, hlive⟩ := advance_none (Prod.ext rfl hq)
        rw [hlive]
        intro pkt' hpkt buf hbuf
        obtain hpkt | hpkt := List.mem_append.mp hpkt
        · refine h.calls a ha buf ?_
          rw [hpc, Option.mem_toList.mp hpkt]
          exact hbuf
        · exact h.live pkt' hpkt buf hbuf
    · refine Many.forall_replace h.calls fun a' ha' => ?_
      obtain ⟨p, hp, rfl⟩ := Option.map_eq_some_iff.mp ha'
      exact hnext p hp

/-! ## Packets of sessions that are over -/

/-- A free at `p` that does not look at the transmit counter. -/
def Mild : Pc → Prop
  | .ret none => True
  | .commandFree _ _ => True
  | .fetchSub .rx _ => True
  | .heapFree .rx _ => True
  | _ => False

theorem Mild.freeMmpkt {pkt : Packet} (h : pkt.ops ≠ .txData) : Mild (freeMmpkt pkt) := by
  obtain ⟨addr, ops⟩ := pkt
  cases ops with
  | txData => exact absurd rfl h
  | rxData =>
    unfold Pkt.freeMmpkt
    simp only
    split_ifs <;> trivial
  | txCommand => trivial
  | rxCommand => trivial
  | heap => trivial

theorem Mild.advance (hp : Mild p) (h : advance c o s p = (t, q)) :
    dataAllocated t .tx = dataAllocated s .tx ∧ ∀ p' ∈ q, Mild p' := by
  unfold Mild at hp
  split at hp
  · obtain ⟨rfl, rfl⟩ := Prod.mk.inj h
    exact ⟨rfl, nofun⟩
  · obtain ⟨rfl, rfl⟩ := Prod.mk.inj h
    exact ⟨setCommandFreeList_allocated _ _, fun p' hp' => Option.some.inj hp' ▸ trivial⟩
  · obtain ⟨rfl, rfl⟩ := Prod.mk.inj h
    exact ⟨rfl, fun p' hp' => Option.some.inj hp' ▸ trivial⟩
  · obtain ⟨rfl, rfl⟩ := Prod.mk.inj h
    exact ⟨rfl, fun p' hp' => Option.some.inj hp' ▸ trivial⟩
  · exact hp.elim

/-- **The invariant of sessions**: a session keeps its account and brings in no old block; and during
one, the frees of older packets have nothing left to do. -/
structure Kept (c : Config) (x : Sessions) : Prop where
  account : x.up = true → Accounts c ⟨x.mem, x.calls⟩
  blocks : x.up = true → New x.old ⟨x.mem, x.calls⟩
  down : x.up = false → x.calls = [] ∧ dataAllocated x.mem .tx = 0
  frees : ∀ p ∈ x.frees, p = .ret none ∨ x.up = false ∧ Mild p

variable {x y : Sessions} {e : SessionEvent}

theorem Kept.init {txBlocks rxBlocks : List Nat} (hcalls : x.calls = []) (hfrees : x.frees = [])
    (hnew : ∀ buf ∈ txBlocks ++ rxBlocks, buf ∉ x.old) : Kept c (x.init txBlocks rxBlocks) := by
  obtain ⟨mem, up, carved, calls, stale, frees, old⟩ := x
  obtain rfl : calls = [] := hcalls
  obtain rfl : frees = [] := hfrees
  refine ⟨fun _ => .init txBlocks rxBlocks, fun _ => ?_, nofun, fun p hp => absurd hp List.not_mem_nil⟩
  refine ⟨fun d buf hbuf => hnew buf ?_, fun _ h => absurd h List.not_mem_nil,
    fun _ h => absurd h List.not_mem_nil⟩
  cases d with
  | tx => exact List.mem_append_left _ hbuf
  | rx => exact List.mem_append_right _ hbuf

/-- A free that has nothing left to do changes nothing. -/
theorem advance_ret_none (h : advance c o s (.ret none) = (t, q)) : t = s ∧ q = none := by
  obtain ⟨rfl, rfl⟩ := Prod.mk.inj h
  exact ⟨rfl, rfl⟩

/-- **Every step keeps the invariant**, as long as the frees of older packets are apt. -/
theorem Kept.step (h : Kept c x) (hs : x.Step c e y) (hapt : Apt x e) : Kept c y := by
  cases e with
  | init txBlocks rxBlocks =>
    obtain ⟨⟨hdown, hfrees, hnew⟩, hy⟩ := Option.ite_none_right_eq_some.mp hs
    obtain rfl := Option.some.inj hy
    exact .init (h.down hdown).1 hfrees hnew
  | deinit gaveUp =>
    obtain ⟨⟨-, hcalls, hfrees, -⟩, hy⟩ := Option.ite_none_right_eq_some.mp hs
    obtain rfl := Option.some.inj hy
    refine ⟨nofun, nofun, fun _ => ⟨List.isEmpty_iff.mp hcalls, rfl⟩, fun p hp => ?_⟩
    have hp : p ∈ x.frees := hp
    rw [hfrees] at hp
    exact absurd hp List.not_mem_nil
  | own e =>
    obtain ⟨hup, hy⟩ := Option.ite_none_right_eq_some.mp hs
    obtain ⟨m, hm, rfl⟩ := Option.map_eq_some_iff.mp hy
    have hstep := Prog.anyStep_of_exec hm
    refine ⟨fun _ => (h.account hup).step hstep, fun _ => (h.blocks hup).step hstep, fun hdown => ?_, h.frees⟩
    exact absurd (hdown.symm.trans hup) Bool.false_ne_true
  | stale pkt =>
    obtain ⟨-, hy⟩ := Option.ite_none_right_eq_some.mp hs
    obtain rfl := Option.some.inj hy
    refine ⟨h.account, h.blocks, h.down, List.forall_mem_cons.mpr ⟨?_, h.frees⟩⟩
    obtain hheap | ⟨hdown, hops⟩ := hapt
    · left
      unfold freeMmpkt
      rw [hheap]
    · exact .inr ⟨hdown, .freeMmpkt hops⟩
  | free i o =>
    obtain ⟨m, hm, rfl⟩ := Option.map_eq_some_iff.mp hs
    have hstep := Prog.anyStep_of_exec hm
    generalize hx : (⟨x.mem, x.frees⟩ : Many State Pc) = w at hstep
    cases hstep with
    | @step s t l r ctx p q o hst =>
      obtain ⟨hmem, hfrees⟩ := Many.mk.inj hx
      have hst : advance c o s p = (t, q) := hst
      have hall := hfrees ▸ h.frees
      have hp := hall p (List.mem_append_right _ (List.mem_cons_self ..))
      obtain rfl | ⟨hdown, hmild⟩ := hp
      · obtain ⟨rfl, rfl⟩ := advance_ret_none hst
        refine ⟨fun hup => ?_, fun hup => ?_, fun hdown => ?_, Many.forall_replace hall nofun⟩
        · exact hmem ▸ h.account hup
        · exact hmem ▸ h.blocks hup
        · exact hmem ▸ h.down hdown
      · obtain ⟨hzero, hnext⟩ := hmild.advance hst
        refine ⟨fun hup => ?_, fun hup => ?_, fun _ => ⟨(h.down hdown).1, ?_⟩,
          Many.forall_replace hall fun p' hp' => .inr ⟨hdown, hnext p' hp'⟩⟩
        · exact absurd (hdown.symm.trans hup) Bool.false_ne_true
        · exact absurd (hdown.symm.trans hup) Bool.false_ne_true
        · exact hzero.trans (hmem ▸ (h.down hdown).2)

theorem Kept.blank : Kept c .blank :=
  ⟨nofun, nofun, fun _ => ⟨rfl, rfl⟩, fun _ h => absurd h List.not_mem_nil⟩

theorem Mild.ne_asserted (h : Mild p) : p ≠ .asserted := by
  rintro rfl
  exact h

/-- No assertion has failed; and during a session the counters are those of its own packets and calls,
and no block of a pool that was left is on its free lists. -/
def Harmless (x : Sessions) : Prop :=
  (∀ p ∈ x.frees, p ≠ .asserted) ∧ (∀ a ∈ x.calls, a.pc ≠ .asserted) ∧
    (x.up = true → (∀ d, dataAllocated x.mem d = liveData d x.mem + owedAll d x.calls) ∧
      ∀ d, ∀ buf ∈ commandFreeList x.mem d, buf ∉ x.old)

/-- **Packets that outlive their session are harmless** in every run of sessions in which their frees
are apt. -/
theorem stale_frees_harmless (c : Config) (tr : List SessionEvent) (x : Sessions)
    (hr : Run (fun x e y => x.Step c e y ∧ Apt x e) .blank tr x) : Harmless x := by
  have h : Kept c x := hr.inv .blank fun _ _ _ h hs => h.step hs.1 hs.2
  refine ⟨fun p hp => ?_, fun a ha => ?_, fun hup => ⟨(h.account hup).counter, (h.blocks hup).free⟩⟩
  · obtain rfl | ⟨-, hmild⟩ := h.frees p hp
    · exact Pc.noConfusion
    · exact hmild.ne_asserted
  · cases hup : x.up with
    | true => exact (h.account hup).asserted a ha
    | false => exact absurd ((h.down hup).1 ▸ ha) List.not_mem_nil

/-- A free is begun and takes its first step. -/
theorem run_stale {pkt : Packet} (hpkt : pkt ∈ x.stale) (hfrees : x.frees = [])
    (h : advance c o x.mem (freeMmpkt pkt) = (t, q)) :
    Run (Sessions.Step c) x [.stale pkt, .free 0 o]
      { x with mem := t, stale := x.stale.erase pkt, frees := q.toList } := by
  obtain ⟨mem, up, carved, calls, stale, frees, old⟩ := x
  obtain rfl : frees = [] := hfrees
  refine Run.cons (if_pos hpkt) (Run.single ?_)
  have hexec : (pktProg c).execAny ⟨mem, [freeMmpkt pkt]⟩ (.step .thread 0 o) =
      some ⟨(advance c o mem (freeMmpkt pkt)).1, (advance c o mem (freeMmpkt pkt)).2.toList ++ []⟩ := rfl
  rw [h, List.append_nil] at hexec
  simp only [Sessions.Step, Sessions.next, hexec]
  rfl

/-- A counter that a free of an older packet takes one from is no longer that of the session. -/
theorem not_harmless_of_fetchSub {pkts : List Packet} {fs : List Pc} (h : Kept c x) (hup : x.up = true)
    (d : Dir) : ¬ Harmless { x with mem := addDataAllocated x.mem (-1) d, stale := pkts, frees := fs } := by
  rintro ⟨-, -, hmem⟩
  have hcounter := (hmem hup).1 d
  have haccount := (h.account hup).counter d
  rw [addDataAllocated_dataAllocated, if_pos rfl, liveData_congr (addDataAllocated_live _ _)] at hcounter
  simp only at hcounter haccount
  omega

/-- A free list that a free of an older packet puts its block on has an old block. -/
theorem not_harmless_of_commandFree {pkts : List Packet} {fs : List Pc} (hup : x.up = true) (d : Dir)
    {buf : Nat} (hold : buf ∈ x.old) :
    ¬ Harmless { x with
      mem := setCommandFreeList x.mem (commandFreeList x.mem d ++ [buf]) d, stale := pkts, frees := fs } := by
  rintro ⟨-, -, hmem⟩
  refine (hmem hup).2 d buf ?_ hold
  rw [commandFreeList_set, if_pos rfl]
  exact List.mem_append_right _ (List.mem_singleton.mpr rfl)

/-- **The condition is exact**: any other free of a packet that has outlived its session does harm with
its first step, where a reserved block is one of a pool that was left. -/
theorem stale_free_harms (h : Kept c x) (hfrees : x.frees = []) {pkt : Packet} (hpkt : pkt ∈ x.stale)
    (hnull : ¬ pkt.Null) (hblock : ∀ buf ∈ pkt.block, buf ∈ x.old) (hapt : ¬ Apt x (.stale pkt))
    (o : Outside) : ∃ y, Run (Sessions.Step c) x [.stale pkt, .free 0 o] y ∧ ¬ Harmless y := by
  obtain ⟨hops, hdown⟩ := not_or.mp hapt
  have hup : pkt.ops ≠ .txData → x.up = true := fun hne => by
    by_contra hup
    exact hdown ⟨Bool.eq_false_iff.mpr hup, hne⟩
  obtain ⟨addr, ops⟩ := pkt
  cases ops with
  | heap => exact absurd rfl hops
  | txData =>
    refine ⟨_, run_stale hpkt hfrees (o := o) rfl, ?_⟩
    by_cases hu : x.up = true
    · exact not_harmless_of_fetchSub h hu .tx
    · -- between sessions the counter is zero
      rintro ⟨hasserted, -⟩
      refine hasserted .asserted ?_ rfl
      simp [(h.down (Bool.eq_false_iff.mpr hu)).2]
  | rxData =>
    have haddr : addr ≠ 0 := fun h0 => hnull ⟨rfl, h0⟩
    have hstep : advance c o x.mem (freeMmpkt ⟨addr, .rxData⟩) =
        (addDataAllocated x.mem (-1) .rx, some (.heapFree .rx addr)) := by
      unfold freeMmpkt
      simp only [if_pos haddr]
      rfl
    exact ⟨_, run_stale hpkt hfrees hstep, not_harmless_of_fetchSub h (hup nofun) .rx⟩
  | txCommand =>
    exact ⟨_, run_stale hpkt hfrees (o := o) rfl,
      not_harmless_of_commandFree (hup nofun) .tx (hblock addr rfl)⟩
  | rxCommand =>
    exact ⟨_, run_stale hpkt hfrees (o := o) rfl,
      not_harmless_of_commandFree (hup nofun) .rx (hblock addr rfl)⟩

/-- A session ends with a receive packet that came from the heap uncounted, and the next one is there
when it is freed. -/
def heapPacketOutlives : List SessionEvent :=
  [.init [] [], .own (.call .thread (.allocRx .command 0 0)), .own (.step .thread 0 ⟨0, true⟩),
    .own (.step .thread 0 ⟨0x100, true⟩), .own (.step .thread 0 ⟨0, true⟩), .deinit false,
    .init [0x200] [], .stale ⟨0x100, .heap⟩, .free 0 ⟨0, true⟩]

/-- The second session is not touched. -/
theorem stale_frees_harmless_heap : ∃ x,
    Run (fun x e y => x.Step threeBlocks e y ∧ Apt x e) .blank heapPacketOutlives x ∧ x.up = true ∧
      Harmless x := by
  have hfold : (heapPacketOutlives.foldlM
      (fun x e => if Apt x e then x.next threeBlocks e else none) Sessions.blank).any
      (fun x => x.up) = true := by decide
  obtain ⟨x, hr, hup⟩ : ∃ x, Run (fun x e y => x.Step threeBlocks e y ∧ Apt x e) .blank
      heapPacketOutlives x ∧ x.up = true :=
    Run.ofFold_any (fun x e y h => (Option.ite_none_right_eq_some.mp h).symm) hfold
  exact ⟨x, hr, hup, stale_frees_harmless threeBlocks heapPacketOutlives x hr⟩

/-- A deinit gives up on a transmit packet, which is freed afterwards. -/
def dataPacketOutlives : List SessionEvent :=
  [.init [] [], .own (.call .thread (.allocTx .data 0 0 0)), .own (.step .thread 0 ⟨0, true⟩),
    .own (.step .thread 0 ⟨0x100, true⟩), .own (.step .thread 0 ⟨0, true⟩),
    .own (.step .thread 0 ⟨0, true⟩), .deinit true, .stale ⟨0x100, .txData⟩, .free 0 ⟨0, true⟩]

/-- **The assertion fails.** -/
theorem stale_free_asserts : ∃ x, Run (Sessions.Step threeBlocks) .blank dataPacketOutlives x ∧
    Pc.asserted ∈ x.frees := by
  have hfold : (dataPacketOutlives.foldlM (Sessions.next threeBlocks) Sessions.blank).any
      (fun x => x.frees.contains .asserted) = true := by decide
  obtain ⟨x, hr, hx⟩ := Run.ofFold_any (fun _ _ _ h => h) hfold
  exact ⟨x, hr, List.contains_iff_mem.mp hx⟩

end MmHalow.Pkt
