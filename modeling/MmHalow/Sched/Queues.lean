import MmHalow.Osal.HeapRun
import MmHalow.Sched.Objects

/-!
# Queues (`mmosal_queue_*`)

A queue is the list of the items it holds (`Queue.contents`); the record of effects says what was
pushed and popped, in order (`pushes`, `pops`).

* `queueCreate_spec`: what `mmosal_queue_create` gives: a header and room for all items in one
  block of the heap, nothing wrapped.
* `QueueOk`, `queueOk_rule`: **the invariant, and that every evaluation and operation keeps it.**
* `queue_fifo`: **in every run, whoever pushes and pops, a queue is a bounded FIFO.**
-/

namespace MmHalow.Sched

open MmHalow.Lib MmHalow.Lib.FirstFit MmHalow.Osal

/-! ## What was pushed and popped -/

/-- The item an effect puts on the queue `q`. -/
def Effect.pushedOn (q : Nat) : Effect → Option (List UInt8)
  | .pushed q' item => if q' = q then some item else none
  | _ => none

/-- The item an effect takes off the queue `q`. -/
def Effect.poppedFrom (q : Nat) : Effect → Option (List UInt8)
  | .popped q' item => if q' = q then some item else none
  | _ => none

/-- The items of the successful pushes to `q`, in order. -/
def pushes (q : Nat) (log : List Effect) : List (List UInt8) :=
  log.reverse.filterMap (Effect.pushedOn q)

/-- The items of the successful pops from `q`, in order. -/
def pops (q : Nat) (log : List Effect) : List (List UInt8) :=
  log.reverse.filterMap (Effect.poppedFrom q)

theorem pushes_cons (q : Nat) (e : Effect) (log : List Effect) :
    pushes q (e :: log) = pushes q log ++ (e.pushedOn q).toList := by
  unfold pushes
  rw [List.reverse_cons, List.filterMap_append]
  cases h : e.pushedOn q <;> simp [h]

theorem pops_cons (q : Nat) (e : Effect) (log : List Effect) :
    pops q (e :: log) = pops q log ++ (e.poppedFrom q).toList := by
  unfold pops
  rw [List.reverse_cons, List.filterMap_append]
  cases h : e.poppedFrom q <;> simp [h]

/-! ## Creation -/

/-- **`mmosal_queue_create`** on a heap: where it gives a queue, this is empty and well formed, and
the block that holds it has room for the header and `num_items * item_size` bytes. -/
theorem queueCreate_spec {P : Pool} {h h' : Heap} {l : List Seg} {numItems itemSize : Nat} {q : Queue}
    (hr : Rep P h l) (hn : numItems < P.abi.sizeMod)
    (hc : queueCreate P.abi P.heapSize numItems itemSize h = some (some q, h')) :
    q.WF P.abi ∧ q.contents = [] ∧ q.numItems = numItems ∧ q.itemSize = itemSize ∧
      queueHdr P.abi + numItems * itemSize < P.abi.sizeMod ∧
      ∃ p s l', (p, s) ∈ place (blockHdr P.abi) P.base l' ∧ Rep P h' l' ∧ s.used = true ∧
        q.items = blockData P.abi p + queueHdr P.abi ∧
        queueHdr P.abi + numItems * itemSize ≤ s.size := by
  unfold queueCreate at hc
  cases hs : queueSize P.abi numItems itemSize with
  | none =>
    rw [hs] at hc
    exact absurd (Prod.mk.inj (Option.some.inj hc)).1 (Option.some_ne_none q).symm
  | some size =>
    simp only [hs] at hc
    obtain ⟨hsz, hfit⟩ := queueSize_some hn hs
    rcases hr.malloc size with ⟨hm, -⟩ | ⟨p, l', h1, hm, -, -, hal, hr', -⟩
    · rw [hm] at hc
      exact absurd (Prod.mk.inj (Option.some.inj hc)).1 (Option.some_ne_none q).symm
    · rw [hm] at hc
      obtain ⟨hq, rfl⟩ := Prod.mk.inj (Option.some.inj hc)
      by_cases hp : blockData P.abi p = 0
      · rw [if_pos hp] at hq
        exact absurd hq (Option.some_ne_none q).symm
      · rw [if_neg hp] at hq
        obtain rfl := Option.some.inj hq
        obtain ⟨hwf, hempty⟩ := queueInit_wf (p := blockData P.abi p) (m := h1.mem) hn hs
        obtain ⟨-, k, -, -, hle, -, hmem, -⟩ := mem_place_alloc hal
        refine ⟨hwf, hempty, rfl, rfl, hfit, p, ⟨k, true⟩, l', hmem, hr', rfl, rfl, ?_⟩
        have : size ≤ rounded size := by
          unfold rounded
          omega
        show queueHdr P.abi + numItems * itemSize ≤ k
        omega

/-! ## The invariant -/

variable {cfg : Config} {q : Nat}

/-- The queue `q`, of `n` items of `k` bytes at `a`, holds what was pushed and not yet popped. -/
structure QueueOk (cfg : Config) (q n k a : Nat) (g : Globals) : Prop where
  wf : (g.queue q).WF cfg.abi
  numItems : (g.queue q).numItems = n
  itemSize : (g.queue q).itemSize = k
  items : (g.queue q).items = a
  fifo : pushes q g.log = pops q g.log ++ (g.queue q).contents

variable {n k a q' : Nat} {g : Globals} {item : List UInt8}

/-- Pushes and pops leave the size and the place of a queue alone. -/
theorem queuePush_params (abi : Abi) (item : List UInt8) (Q : Queue) :
    (queuePushFromIsr abi item Q).2.numItems = Q.numItems ∧
      (queuePushFromIsr abi item Q).2.itemSize = Q.itemSize ∧
      (queuePushFromIsr abi item Q).2.items = Q.items := by
  unfold queuePushFromIsr
  split_ifs <;> exact ⟨rfl, rfl, rfl⟩

theorem queuePop_params (abi : Abi) (Q : Queue) :
    (queuePopFromIsr abi Q).2.numItems = Q.numItems ∧
      (queuePopFromIsr abi Q).2.itemSize = Q.itemSize ∧
      (queuePopFromIsr abi Q).2.items = Q.items := by
  unfold queuePopFromIsr
  split_ifs <;> exact ⟨rfl, rfl, rfl⟩

/-- What concerns neither the queue nor its record. -/
theorem QueueOk.other {g' : Globals} (h : QueueOk cfg q n k a g) (hq : g'.queue q = g.queue q)
    (hpush : pushes q g'.log = pushes q g.log) (hpop : pops q g'.log = pops q g.log) :
    QueueOk cfg q n k a g' := by
  obtain ⟨hwf, hn, hk, ha, hf⟩ := h
  exact ⟨by rw [hq]; exact hwf, by rw [hq]; exact hn, by rw [hq]; exact hk, by rw [hq]; exact ha,
    by rw [hpush, hpop, hq]; exact hf⟩

/-- **A successful push to any queue.** -/
theorem QueueOk.pushed (h : QueueOk cfg q n k a g)
    (hp : (queuePushFromIsr cfg.abi item (g.queue q')).1 = true) :
    QueueOk cfg q n k a { g with
      queue := Function.update g.queue q' (queuePushFromIsr cfg.abi item (g.queue q')).2
      log := .pushed q' ((g.queue q').copied item) :: g.log } := by
  by_cases hq : q' = q
  · subst hq
    obtain ⟨-, hwf, hc⟩ := queuePush_spec h.wf hp
    obtain ⟨hn, hk, ha⟩ := queuePush_params cfg.abi item (g.queue q')
    constructor
    · simpa using hwf
    · simpa using hn.trans h.numItems
    · simpa using hk.trans h.itemSize
    · simpa using ha.trans h.items
    · simp only [Function.update_self]
      rw [pushes_cons, pops_cons, hc, h.fifo]
      simp [Effect.pushedOn, Effect.poppedFrom]
  · refine h.other (Function.update_of_ne (Ne.symm hq) _ _) ?_ ?_
    · rw [pushes_cons]
      simp [Effect.pushedOn, hq]
    · rw [pops_cons]
      simp [Effect.poppedFrom]

/-- **A successful pop from any queue.** -/
theorem QueueOk.popped (h : QueueOk cfg q n k a g)
    (hp : (queuePopFromIsr cfg.abi (g.queue q')).1 = some item) :
    QueueOk cfg q n k a { g with
      queue := Function.update g.queue q' (queuePopFromIsr cfg.abi (g.queue q')).2
      log := .popped q' item :: g.log } := by
  by_cases hq : q' = q
  · subst hq
    obtain ⟨-, hwf, hc⟩ := queuePop_spec h.wf hp
    obtain ⟨hn, hk, ha⟩ := queuePop_params cfg.abi (g.queue q')
    constructor
    · simpa using hwf
    · simpa using hn.trans h.numItems
    · simpa using hk.trans h.itemSize
    · simpa using ha.trans h.items
    · simp only [Function.update_self]
      rw [pushes_cons, pops_cons, h.fifo, hc]
      simp [Effect.pushedOn, Effect.poppedFrom]
  · refine h.other (Function.update_of_ne (Ne.symm hq) _ _) ?_ ?_
    · rw [pushes_cons]
      simp [Effect.pushedOn]
    · rw [pops_cons]
      simp [Effect.poppedFrom, hq]

/-- An effect on something else than a queue. -/
theorem QueueOk.effect {g' : Globals} {e : Effect} (h : QueueOk cfg q n k a g)
    (hq : g'.queue = g.queue) (hlog : g'.log = e :: g.log) (hpush : e.pushedOn q = none)
    (hpop : e.poppedFrom q = none) : QueueOk cfg q n k a g' := by
  refine h.other (by rw [hq]) ?_ ?_
  · rw [hlog, pushes_cons, hpush]
    exact List.append_nil _
  · rw [hlog, pops_cons, hpop]
    exact List.append_nil _

theorem QueueOk.cond (c : Cond) (h : QueueOk cfg q n k a g) :
    QueueOk cfg q n k a (evalCond cfg c g).2 := by
  cases c with
  | notified t =>
    simp only [evalCond]
    split_ifs
    · exact h.effect rfl rfl rfl rfl
    · exact h
  | mutexAcquired m => exact h.other rfl rfl rfl
  | semTaken s =>
    simp only [evalCond]
    split_ifs
    · exact h.effect rfl rfl rfl rfl
    · exact h
  | sembTaken s =>
    simp only [evalCond]
    split_ifs
    · exact h.effect rfl rfl rfl rfl
    · exact h.other rfl rfl rfl
  | queuePopped q' =>
    simp only [evalCond]
    split
    · next item Q hp =>
      have := h.popped (congrArg Prod.fst hp)
      rwa [hp] at this
    · exact h
  | queuePushed q' item =>
    simp only [evalCond]
    split_ifs with hp
    · exact h.pushed hp
    · exact h
  | isDead t => exact h

theorem QueueOk.micro (m : Micro) (rest : List Micro) (heap : Bool) (h : QueueOk cfg q n k a g) :
    QueueOk cfg q n k a (microStep cfg heap m rest g).2 := by
  cases m with
  | notify t => exact h.effect rfl rfl rfl rfl
  | sembGive s => exact h.effect rfl rfl rfl rfl
  | semGive s =>
    simp only [microStep]
    split_ifs
    · exact h.effect rfl rfl rfl rfl
    · exact h
  | queuePush q' item =>
    simp only [microStep]
    split_ifs with hp
    · exact h.pushed hp
    · exact h
  | queuePop q' =>
    simp only [microStep]
    split
    · next item Q hp =>
      have := h.popped (congrArg Prod.fst hp)
      rwa [hp] at this
    · exact h
  | deleteSelf =>
    simp only [microStep]
    split <;> exact h.other rfl rfl rfl
  | create =>
    simp only [microStep]
    split
    · exact h
    · next hc =>
      obtain ⟨t, -, rfl⟩ := taskCreate_cases hc
      exact h.effect rfl rfl rfl rfl
  | pending =>
    simp only [microStep]
    split_ifs <;> exact h.other rfl rfl rfl
  | _ => exact h.other rfl rfl rfl

/-- **Evaluations and operations keep the queue.** -/
theorem queueOk_rule : ObjectRule cfg (QueueOk cfg q n k a) where
  objects g g' ho h := by
    have hq : g'.queue = g.queue := congrArg Objects.queue ho
    have hl : g'.log = g.log := congrArg Objects.log ho
    exact h.other (by rw [hq]) (by rw [hl]) (by rw [hl])
  cond c g h := h.cond c
  micro m rest heap g h := h.micro m rest heap

/-! ## The queue in every run -/

/-- **The queue `q` is a FIFO of at most `n` items of `k` bytes** in the area at `a`. -/
structure BoundedFifo (cfg : Config) (q n k a : Nat) (s : Machine) : Prop where
  /-- The pops so far returned the items of the first pushes, in order; the queue holds the rest. -/
  fifo : pushes q s.g.log = pops q s.g.log ++ (s.g.queue q).contents
  /-- It holds at most `n` items, each of `k` bytes. -/
  bound : (s.g.queue q).contents.length ≤ n ∧ ∀ item ∈ (s.g.queue q).contents, item.length = k
  /-- An evaluation of a push appends its item, or finds the queue full and changes nothing. -/
  push : ∀ item, if (evalCond cfg (.queuePushed q item) s.g).1
    then (s.g.queue q).contents.length < n ∧
      ((evalCond cfg (.queuePushed q item) s.g).2.queue q).contents =
        (s.g.queue q).contents ++ [item.takeD k 0]
    else (s.g.queue q).contents.length = n ∧ (evalCond cfg (.queuePushed q item) s.g).2 = s.g
  /-- An evaluation of a pop takes the oldest item, or finds the queue empty and changes nothing. -/
  pop : if (evalCond cfg (.queuePopped q) s.g).1
    then ∃ item, (s.g.queue q).contents =
      item :: ((evalCond cfg (.queuePopped q) s.g).2.queue q).contents
    else (s.g.queue q).contents = [] ∧ (evalCond cfg (.queuePopped q) s.g).2 = s.g
  /-- The step of an operation does what an evaluation does. -/
  isr : ∀ heap rest, (∀ item, microStep cfg heap (.queuePush q item) rest s.g =
      (if (evalCond cfg (.queuePushed q item) s.g).1 then rest else [],
        (evalCond cfg (.queuePushed q item) s.g).2)) ∧
    microStep cfg heap (.queuePop q) rest s.g =
      (if (evalCond cfg (.queuePopped q) s.g).1 then rest else [],
        (evalCond cfg (.queuePopped q) s.g).2)
  /-- Head and tail are cells of the item area, and no size wraps. -/
  inside : ∀ i, i = (s.g.queue q).head ∨ i = (s.g.queue q).tail → 0 < n →
    a ≤ (s.g.queue q).cellAddr cfg.abi i ∧ (s.g.queue q).cellAddr cfg.abi i + k ≤ a + n * k
  /-- The modulo by `num_items` is not evaluated for 0. -/
  modulus : ((evalCond cfg (.queuePopped q) s.g).1 = true ∨
    ∃ item, (evalCond cfg (.queuePushed q item) s.g).1 = true) → (s.g.queue q).numItems ≠ 0
  /-- A wait returns what its last evaluation gave, and no evaluation before gave true. -/
  waits : AllFrames (ReturnsLast cfg) s

variable {s : Machine}

theorem QueueOk.length_le (h : QueueOk cfg q n k a g) : (g.queue q).contents.length ≤ n := by
  rw [Queue.length_contents, ← h.numItems]
  exact h.wf.ring.count_le

theorem evalCond_pushed (hp : (queuePushFromIsr cfg.abi item (g.queue q)).1 = true) :
    evalCond cfg (.queuePushed q item) g = (true, { g with
      queue := Function.update g.queue q (queuePushFromIsr cfg.abi item (g.queue q)).2
      log := .pushed q ((g.queue q).copied item) :: g.log }) := by
  simp only [evalCond, if_pos hp]

theorem evalCond_full (hp : (queuePushFromIsr cfg.abi item (g.queue q)).1 = false) :
    evalCond cfg (.queuePushed q item) g = (false, g) := by
  simp only [evalCond, hp, Bool.false_eq_true, if_false]

theorem QueueOk.push (h : QueueOk cfg q n k a g) (item : List UInt8) :
    if (evalCond cfg (.queuePushed q item) g).1
    then (g.queue q).contents.length < n ∧
      ((evalCond cfg (.queuePushed q item) g).2.queue q).contents =
        (g.queue q).contents ++ [item.takeD k 0]
    else (g.queue q).contents.length = n ∧ (evalCond cfg (.queuePushed q item) g).2 = g := by
  by_cases hp : (queuePushFromIsr cfg.abi item (g.queue q)).1 = true
  · obtain ⟨hlt, -, hc⟩ := queuePush_spec h.wf hp
    rw [evalCond_pushed hp, if_pos rfl, Queue.length_contents, ← h.numItems, ← h.itemSize]
    refine ⟨hlt, ?_⟩
    simp only [Function.update_self]
    exact hc
  · have hf := Bool.eq_false_iff.mpr hp
    have hle := (queuePush_full hf).1
    rw [h.numItems, ← Queue.length_contents] at hle
    rw [evalCond_full hf, if_neg Bool.false_ne_true]
    exact ⟨Nat.le_antisymm h.length_le hle, rfl⟩

theorem evalCond_popped (hp : (queuePopFromIsr cfg.abi (g.queue q)).1 = some item) :
    evalCond cfg (.queuePopped q) g = (true, { g with
      queue := Function.update g.queue q (queuePopFromIsr cfg.abi (g.queue q)).2
      log := .popped q item :: g.log }) := by
  generalize hr : queuePopFromIsr cfg.abi (g.queue q) = r at hp ⊢
  obtain ⟨_, Q⟩ := r
  obtain rfl := hp
  simp only [evalCond, hr]

theorem evalCond_empty (hp : (queuePopFromIsr cfg.abi (g.queue q)).1 = none) :
    evalCond cfg (.queuePopped q) g = (false, g) := by
  generalize hr : queuePopFromIsr cfg.abi (g.queue q) = r at hp
  obtain ⟨_, Q⟩ := r
  obtain rfl := hp
  simp only [evalCond, hr]

theorem QueueOk.pop (h : QueueOk cfg q n k a g) :
    if (evalCond cfg (.queuePopped q) g).1
    then ∃ item, (g.queue q).contents = item :: ((evalCond cfg (.queuePopped q) g).2.queue q).contents
    else (g.queue q).contents = [] ∧ (evalCond cfg (.queuePopped q) g).2 = g := by
  cases hp : (queuePopFromIsr cfg.abi (g.queue q)).1 with
  | some item =>
    obtain ⟨-, -, hc⟩ := queuePop_spec h.wf hp
    rw [evalCond_popped hp, if_pos rfl]
    refine ⟨item, ?_⟩
    simp only [Function.update_self]
    exact hc
  | none =>
    have hz := (queuePop_empty hp).1
    rw [evalCond_empty hp, if_neg Bool.false_ne_true]
    exact ⟨List.eq_nil_of_length_eq_zero ((Queue.length_contents _).trans hz), rfl⟩

theorem microStep_push (heap : Bool) (rest : List Micro) (item : List UInt8) :
    microStep cfg heap (.queuePush q item) rest g =
      (if (evalCond cfg (.queuePushed q item) g).1 then rest else [],
        (evalCond cfg (.queuePushed q item) g).2) := by
  by_cases hp : (queuePushFromIsr cfg.abi item (g.queue q)).1 = true
  · rw [evalCond_pushed hp]
    simp only [microStep, if_pos hp, if_true]
  · rw [evalCond_full (Bool.eq_false_iff.mpr hp)]
    simp only [microStep, if_neg hp, Bool.false_eq_true, if_false]

theorem microStep_pop (heap : Bool) (rest : List Micro) :
    microStep cfg heap (.queuePop q) rest g =
      (if (evalCond cfg (.queuePopped q) g).1 then rest else [],
        (evalCond cfg (.queuePopped q) g).2) := by
  generalize hr : queuePopFromIsr cfg.abi (g.queue q) = r
  obtain ⟨r, Q⟩ := r
  cases r with
  | some item => simp only [microStep, evalCond, hr, if_true]
  | none => simp only [microStep, evalCond, hr, Bool.false_eq_true, if_false]

theorem QueueOk.inside (h : QueueOk cfg q n k a g) {i : Nat}
    (hi : i = (g.queue q).head ∨ i = (g.queue q).tail) (h0 : 0 < n) :
    a ≤ (g.queue q).cellAddr cfg.abi i ∧ (g.queue q).cellAddr cfg.abi i + k ≤ a + n * k := by
  have hpos : 0 < (g.queue q).numItems := h.numItems ▸ h0
  have hlt : i < (g.queue q).numItems := by
    rcases hi with rfl | rfl
    · exact h.wf.ring.head_lt hpos
    · exact h.wf.ring.tail_lt hpos
  rw [cellAddr_eq h.wf hlt, h.items, h.itemSize]
  rw [h.numItems] at hlt
  have := Nat.mul_le_mul_right k hlt
  rw [Nat.succ_mul] at this
  omega

/-- **The invariant says that the queue is a bounded FIFO.** -/
theorem QueueOk.boundedFifo (h : QueueOk cfg q n k a s.g) (hw : AllFrames (ReturnsLast cfg) s) :
    BoundedFifo cfg q n k a s where
  fifo := h.fifo
  bound := by
    refine ⟨h.length_le, fun item hitem => ?_⟩
    obtain ⟨i, -, rfl⟩ := List.mem_map.mp hitem
    rw [← h.itemSize]
    simp [Queue.cell, Lib.Bytes.bytes]
  push := h.push
  pop := h.pop
  isr heap rest := ⟨fun item => microStep_push heap rest item, microStep_pop heap rest⟩
  inside i hi h0 := h.inside hi h0
  modulus := by
    rw [h.numItems]
    rintro (hp | ⟨item, hp⟩) rfl
    · have hpop := h.pop
      rw [if_pos hp] at hpop
      obtain ⟨item, hc⟩ := hpop
      have := h.length_le
      rw [hc] at this
      exact Nat.not_succ_le_zero _ this
    · have hpush := h.push item
      rw [if_pos hp] at hpush
      exact Nat.not_lt_zero _ hpush.1
  waits := hw

variable {now : Nat} {mutex : Nat → Mutex} {sem : Nat → Sem} {semb : Nat → Bool}
  {queue : Nat → Queue} {tr : List Event}

/-- **Queues refine a bounded FIFO.** Wherever `mmosal_queue_create` succeeds on a heap in use, its
block holds the header and the item area, and in every run of tasks, thread context and interrupts
the queue is a FIFO of at most `num_items` items. -/
theorem queue_fifo {P : Pool} {m0 : Bytes.Mem} {calls : List Osal.Call} {hs : HeapState} {h' : Heap}
    (hrun : Run (Step cfg) (boot (bootGlobals now mutex sem semb queue)) tr s)
    (habi : P.abi = cfg.abi) (hheap : Run (HeapStep P) (heapStart P m0) calls hs)
    (hn : n < P.abi.sizeMod)
    (hc : queueCreate P.abi P.heapSize n k hs.heap = some (some (queue q), h')) :
    (queueHdr P.abi + n * k < P.abi.sizeMod ∧ ∃ p seg l',
      (p, seg) ∈ place (blockHdr P.abi) P.base l' ∧ Rep P h' l' ∧ seg.used = true ∧
        (queue q).items = blockData P.abi p + queueHdr P.abi ∧
        queueHdr P.abi + n * k ≤ seg.size) ∧
      BoundedFifo cfg q n k (queue q).items s := by
  obtain ⟨l, hr, -⟩ := Inv.run hheap
  obtain ⟨hwf, hempty, hnum, hsize, hfit, harea⟩ := queueCreate_spec hr hn hc
  refine ⟨⟨hfit, harea⟩, QueueOk.boundedFifo ?_ (waits_run hrun)⟩
  have h0 : QueueOk cfg q n k (queue q).items (bootGlobals now mutex sem semb queue) :=
    ⟨habi ▸ hwf, hnum, hsize, rfl, hempty.symm⟩
  exact hrun.inv (I := fun s => QueueOk cfg q n k (queue q).items s.g) h0
    fun _ _ _ hq hs => hs.objects queueOk_rule hq

/-- A pool of 256 bytes. -/
def smallPool : Pool where
  abi := .ilp32
  heapSize := 256
  base := 0x20000000
  base_pos := ramPool.base_pos
  base_aligned := ramPool.base_aligned
  hdr_le := by decide
  fits := by decide

/-- `mmosal_queue_create(2, 2)` on the new heap. -/
def smallQueue : Option (Option Queue × Heap) :=
  queueCreate smallPool.abi smallPool.heapSize 2 2 (heapStart smallPool fun _ => 0).heap

/-- Boot with the queue `q`. -/
def bootWith (q : Queue) : Machine :=
  boot (bootGlobals 0 (fun _ => ⟨none, 0, false⟩) (fun _ => semCreate 1 0) (fun _ => false)
    fun _ => q)

/-- An interrupt pushes an item, thread context another; PendSV pops one. -/
def pushPushPop : List Event :=
  [.isr (.queuePush 0 [1, 2]), .isrStep go, .isrStep go, .isrStep go,
    .thread (calling (.op (.queuePush 0 [3, 4]))), .thread go, .dispatch,
    .pendsv (calling (.op (.queuePop 0))), .pendsv go]

theorem queue_fifo_pushPushPop : ∃ q h' s, smallQueue = some (some q, h') ∧
    Run (Step .defaults) (bootWith q) pushPushPop s ∧ pops 0 s.g.log = [[1, 2]] ∧
    BoundedFifo .defaults 0 2 2 q.items s := by
  have hrun : smallQueue.any (fun r => r.1.any fun q =>
      (pushPushPop.foldlM (step .defaults) (bootWith q)).any fun s =>
        pops 0 s.g.log = [[1, 2]]) = true := by rfl
  obtain ⟨⟨oq, h'⟩, hc, hq⟩ := (Option.any_eq_true _ _).mp hrun
  obtain ⟨q, rfl, hs⟩ := (Option.any_eq_true _ _).mp hq
  obtain ⟨s, hs, hp⟩ := run_any _ hs
  refine ⟨q, h', s, hc, hs, of_decide_eq_true hp, ?_⟩
  have hheap : Run (HeapStep smallPool) (heapStart smallPool fun _ => 0) [] _ := Run.nil
  exact (queue_fifo (q := 0) (n := 2) hs rfl hheap (show 2 < Abi.sizeMod .ilp32 by decide) hc).2

end MmHalow.Sched
