import Mathlib.Data.List.TakeDrop
import MmHalow.Lib.Bytes
import MmHalow.Lib.Fifo
import MmHalow.Osal.Heap

/-!
# Synchronisation objects of the OSAL

The mutex, the counting and the binary semaphore, the notifications of a task and the queue, each
with the critical sections that act on it. A critical section is one function here: it returns what
the source's returns and the object after it. The waits that evaluate them, and the call of
`mm_halow_sched_wake` that follows each, are in `Sched/`.

| source                                | here               |
|---------------------------------------|--------------------|
| `mm_halow_mutex_acquired`             | `mutexAcquired`    |
| `mmosal_sem_give`, `mm_halow_sem_taken` | `semGive`, `semTaken` |
| `mmosal_semb_give`, `mm_halow_semb_taken` | `sembGive`, `sembTaken` |
| `mmosal_task_notify`, `mm_halow_task_notified` | `taskNotify`, `taskNotified` |
| `mmosal_queue_create`                 | `queueCreate`      |
| `mmosal_queue_push_from_isr`, `mmosal_queue_pop_from_isr` | `queuePushFromIsr`, `queuePopFromIsr` |

A queue holds the items of a bounded FIFO (`Queue.contents`):

* `queuePush_spec`, `queuePop_spec`: a push that finds room appends its item and a pop that finds
  an item takes the oldest; any other leaves the queue alone.
* `Queue.WF`: the indices are inside the item area; every operation keeps it.
-/

namespace MmHalow.Osal

open MmHalow.Lib MmHalow.Lib.Bytes

/-! ## Mutex, semaphores, notifications -/

/-- `struct mmosal_mutex`; `owner` is a task, or `NULL`. -/
structure Mutex where
  owner : Option Nat
  takenMs : UInt32
  locked : Bool
  deriving Repr, DecidableEq

/-- `mm_halow_mutex_acquired` where `current` is the current task and `ticks` the tick. -/
def mutexAcquired (current : Option Nat) (ticks : UInt32) (m : Mutex) : Bool × Mutex :=
  if m.locked then (false, m) else (true, ⟨current, ticks, true⟩)

/-- `struct mmosal_sem`. -/
structure Sem where
  count : UInt32
  maxCount : UInt32
  deriving Repr, DecidableEq

/-- `mmosal_sem_create`. -/
def semCreate (maxCount initialCount : UInt32) : Sem := ⟨initialCount, maxCount⟩

/-- The critical section of `mmosal_sem_give`. -/
def semGive (s : Sem) : Bool × Sem :=
  if s.count < s.maxCount then (true, { s with count := s.count + 1 }) else (false, s)

/-- `mm_halow_sem_taken`. -/
def semTaken (s : Sem) : Bool × Sem :=
  if 0 < s.count then (true, { s with count := s.count - 1 }) else (false, s)

/-- The store of `mmosal_semb_give` to `signalled`. -/
def sembGive (_signalled : Bool) : Bool := true

/-- `mm_halow_semb_taken`. -/
def sembTaken (signalled : Bool) : Bool × Bool := (signalled, false)

/-- The critical section of `mmosal_task_notify`. -/
def taskNotify (notify : UInt32) : UInt32 := notify + 1

/-- `mm_halow_task_notified`. -/
def taskNotified (notify : UInt32) : Bool × UInt32 :=
  if notify ≠ 0 then (true, notify - 1) else (false, notify)

/-! ## Queues -/

/-- `struct mmosal_queue`, with the memory its item area lies in. -/
structure Queue where
  numItems : Nat
  itemSize : Nat
  head : Nat
  tail : Nat
  count : Nat
  items : Nat
  mem : Mem

/-- `sizeof(struct mmosal_queue)`: six words. -/
def queueHdr (abi : Abi) : Nat := 6 * abi.ptrBytes

/-- The bytes `mmosal_queue_create` asks the heap for; `none` where it refuses. -/
def queueSize (abi : Abi) (numItems itemSize : Nat) : Option Nat :=
  if itemSize ≠ 0 ∧ numItems > (abi.sizeMod - 1 - queueHdr abi) / itemSize then none
  else some ((queueHdr abi + numItems * itemSize % abi.sizeMod) % abi.sizeMod)

/-- The header `mmosal_queue_create` writes to the block at `p`, in memory `m`. -/
def queueInit (abi : Abi) (numItems itemSize p : Nat) (m : Mem) : Queue :=
  ⟨numItems, itemSize, 0, 0, 0, p + queueHdr abi, m⟩

/-- `mmosal_queue_create` on the heap: the queue, unless refused or out of memory. The outer
`none` is the allocator's. -/
def queueCreate (abi : Abi) (heapSize numItems itemSize : Nat) (h : Heap) :
    Option (Option Queue × Heap) :=
  match queueSize abi numItems itemSize with
  | none => some (none, h)
  | some size => (osalMalloc abi heapSize size h).map fun r =>
    (if r.1 = 0 then none else some (queueInit abi numItems itemSize r.1 r.2.mem), r.2)

/-- The address of a cell: `queue->items + i * queue->item_size`. -/
def Queue.cellAddr (abi : Abi) (q : Queue) (i : Nat) : Nat :=
  q.items + i * q.itemSize % abi.sizeMod

/-- The critical section of `mmosal_queue_pop_from_isr`: the item, if there is one. -/
def queuePopFromIsr (abi : Abi) (q : Queue) : Option (List UInt8) × Queue :=
  if 0 < q.count then
    (some (bytes q.mem (q.cellAddr abi q.head) q.itemSize),
      { q with head := (q.head + 1) % abi.sizeMod % q.numItems, count := q.count - 1 })
  else (none, q)

/-- The `item_size` bytes that a push copies, where `item` is what lies at the caller's pointer. -/
def Queue.copied (q : Queue) (item : List UInt8) : List UInt8 := item.takeD q.itemSize 0

/-- The critical section of `mmosal_queue_push_from_isr`. -/
def queuePushFromIsr (abi : Abi) (item : List UInt8) (q : Queue) : Bool × Queue :=
  if q.count < q.numItems then
    (true, { q with
      mem := writeBytes q.mem (q.cellAddr abi q.tail) (q.copied item)
      tail := (q.tail + 1) % abi.sizeMod % q.numItems
      count := q.count + 1 })
  else (false, q)

/-- The indices of the queue. -/
def Queue.ring (q : Queue) : Fifo.Ring := ⟨q.numItems, q.head, q.tail, q.count⟩

/-- The bytes of a cell. -/
def Queue.cell (q : Queue) (i : Nat) : List UInt8 := bytes q.mem (q.items + i * q.itemSize) q.itemSize

/-- The items held, oldest first. -/
def Queue.contents (q : Queue) : List (List UInt8) := Fifo.contents q.ring q.cell

/-- **The queue is well formed**: at most `num_items` items, the indices inside the item area, and
the area's size has not wrapped. -/
structure Queue.WF (abi : Abi) (q : Queue) : Prop where
  ring : Fifo.WF q.ring
  area : queueHdr abi + q.numItems * q.itemSize < abi.sizeMod
  items_lt : q.numItems < abi.sizeMod

variable {abi : Abi} {q : Queue}

theorem cellAddr_eq (h : q.WF abi) {i : Nat} (hi : i < q.numItems) :
    q.cellAddr abi i = q.items + i * q.itemSize := by
  have := Nat.mul_le_mul_right q.itemSize (Nat.le_of_lt hi)
  have := h.area
  unfold Queue.cellAddr
  rw [Nat.mod_eq_of_lt (by omega)]

/-- Advancing an index does not wrap `size_t`. -/
theorem next_mod {n i : Nat} (hi : i < n) (hn : n < abi.sizeMod) :
    (i + 1) % abi.sizeMod % n = (i + 1) % n := by
  rw [Nat.mod_eq_of_lt (show i + 1 < abi.sizeMod by omega)]

/-- Two cells do not meet. -/
theorem cell_apart {q : Queue} {i j : Nat} (h : i ≠ j) :
    q.items + i * q.itemSize + q.itemSize ≤ q.items + j * q.itemSize ∨
      q.items + j * q.itemSize + q.itemSize ≤ q.items + i * q.itemSize := by
  rcases Nat.lt_or_gt_of_ne h with h | h
  · left
    have := Nat.mul_le_mul_right q.itemSize (show i + 1 ≤ j from h)
    rw [Nat.succ_mul] at this
    omega
  · right
    have := Nat.mul_le_mul_right q.itemSize (show j + 1 ≤ i from h)
    rw [Nat.succ_mul] at this
    omega

/-- A push that finds no room says so and does nothing. -/
theorem queuePush_full {item : List UInt8} (h : (queuePushFromIsr abi item q).1 = false) :
    q.numItems ≤ q.count ∧ (queuePushFromIsr abi item q).2 = q := by
  unfold queuePushFromIsr at h ⊢
  by_cases hc : q.count < q.numItems
  · rw [if_pos hc] at h
    exact nomatch h
  · rw [if_neg hc]
    exact ⟨Nat.le_of_not_lt hc, rfl⟩

/-- **A push that finds room** appends its item. -/
theorem queuePush_spec {item : List UInt8} (h : q.WF abi)
    (hp : (queuePushFromIsr abi item q).1 = true) :
    q.count < q.numItems ∧ (queuePushFromIsr abi item q).2.WF abi ∧
      (queuePushFromIsr abi item q).2.contents = q.contents ++ [q.copied item] := by
  have hi : (q.copied item).length = q.itemSize := List.takeD_length ..
  unfold queuePushFromIsr at hp ⊢
  by_cases hc : q.count < q.numItems
  · have ht : q.tail < q.numItems := h.ring.tail_lt (show 0 < q.numItems by omega)
    rw [if_pos hc, next_mod ht h.items_lt, cellAddr_eq h ht]
    refine ⟨hc, ⟨h.ring.push hc, h.area, h.items_lt⟩, ?_⟩
    have hother : ∀ i, i ≠ q.ring.tail → bytes (writeBytes q.mem (q.items + q.tail * q.itemSize)
        (q.copied item)) (q.items + i * q.itemSize) q.itemSize = q.cell i := by
      intro i hne
      refine bytes_writeBytes_other ?_
      rw [hi]
      exact cell_apart hne
    refine (Fifo.contents_push h.ring hc hother).trans ?_
    have hw := bytes_writeBytes q.mem (q.items + q.tail * q.itemSize) (q.copied item)
    rw [hi] at hw
    exact congrArg (fun x => q.contents ++ [x]) hw
  · rw [if_neg hc] at hp
    exact nomatch hp

/-- A pop that finds nothing says so and does nothing. -/
theorem queuePop_empty (h : (queuePopFromIsr abi q).1 = none) :
    q.count = 0 ∧ (queuePopFromIsr abi q).2 = q := by
  unfold queuePopFromIsr at h ⊢
  by_cases hc : 0 < q.count
  · rw [if_pos hc] at h
    exact nomatch h
  · rw [if_neg hc]
    exact ⟨Nat.eq_zero_of_not_pos hc, rfl⟩

/-- **A pop that finds an item** returns the oldest and takes it off. -/
theorem queuePop_spec {item : List UInt8} (h : q.WF abi)
    (hp : (queuePopFromIsr abi q).1 = some item) :
    0 < q.count ∧ (queuePopFromIsr abi q).2.WF abi ∧
      q.contents = item :: (queuePopFromIsr abi q).2.contents := by
  unfold queuePopFromIsr at hp ⊢
  by_cases hc : 0 < q.count
  · have h0 : 0 < q.numItems := Nat.lt_of_lt_of_le hc h.ring.count_le
    have hh : q.head < q.numItems := h.ring.head_lt h0
    rw [if_pos hc, cellAddr_eq h hh] at hp
    obtain rfl := Option.some.inj hp
    rw [if_pos hc, next_mod hh h.items_lt]
    exact ⟨hc, ⟨h.ring.pop hc, h.area, h.items_lt⟩, Fifo.contents_pop h.ring hc⟩
  · rw [if_neg hc] at hp
    exact nomatch hp

theorem Queue.length_contents (q : Queue) : q.contents.length = q.count :=
  Fifo.length_contents q.ring q.cell

/-- The size test of `mmosal_queue_create` leaves room for the header and all items. -/
theorem queueSize_some {n k size : Nat} (hn : n < abi.sizeMod)
    (h : queueSize abi n k = some size) :
    size = queueHdr abi + n * k ∧ queueHdr abi + n * k < abi.sizeMod := by
  have hmod : queueHdr abi < abi.sizeMod := by cases abi <;> decide
  unfold queueSize at h
  by_cases hbig : k ≠ 0 ∧ n > (abi.sizeMod - 1 - queueHdr abi) / k
  · rw [if_pos hbig] at h
    exact nomatch h
  · rw [if_neg hbig] at h
    obtain rfl := Option.some.inj h
    have hfit : n * k ≤ abi.sizeMod - 1 - queueHdr abi := by
      by_cases hk : k = 0
      · rw [hk, Nat.mul_zero]
        exact Nat.zero_le _
      · have hle : n ≤ (abi.sizeMod - 1 - queueHdr abi) / k :=
          Nat.le_of_not_lt fun h => hbig ⟨hk, h⟩
        exact (Nat.le_div_iff_mul_le (Nat.pos_of_ne_zero hk)).mp hle
    rw [Nat.mod_eq_of_lt (show n * k < abi.sizeMod by omega), Nat.mod_eq_of_lt (by omega)]
    exact ⟨rfl, by omega⟩

/-- A new queue is empty and well formed. -/
theorem queueInit_wf {n k size p : Nat} {m : Mem} (hn : n < abi.sizeMod)
    (h : queueSize abi n k = some size) :
    (queueInit abi n k p m).WF abi ∧ (queueInit abi n k p m).contents = [] :=
  ⟨⟨Fifo.WF.empty n, (queueSize_some hn h).2, hn⟩, rfl⟩

end MmHalow.Osal
