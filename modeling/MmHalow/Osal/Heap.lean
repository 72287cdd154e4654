import MmHalow.Lib.Bytes

/-!
# The private heap (`mm_halow_osal.c`)

Model of `mm_halow_osal_init`, `mm_halow_osal_malloc`, `mm_halow_osal_free`, `mmosal_calloc_` and
`mmosal_realloc_`. The pool is memory, and the block headers are words of that memory: the
functions below read and write them with `load` and `store`, in the order of the source.

* A `mm_halow_block_t` at `b` is `next` at offset 0, `size` behind it and the byte `used` behind
  both; `blockNext`, `blockSize`, `blockUsed` and their setters are the field accesses.
* `size_t` arithmetic is modulo `sizeMod` (`SIZE_MAX + 1`). `Abi` selects the 32-bit target or the
  64-bit host the tests are built for. `NULL` is address 0.
* The two list walks take fuel and return `none` when it runs out; `MM_HALOW_HEAP_SIZE + 1` rounds
  are supplied, more than a pool has blocks (`HeapRefine.lean` proves that they suffice).
* `portAlloc` in `osalInit` is what `mm_halow_port_heap_alloc` returned.
-/

namespace MmHalow.Osal

open MmHalow.Lib.Bytes

/-- Width of a pointer and of `size_t`: the Cortex-M target, or the host of the tests. -/
inductive Abi where
  | ilp32
  | lp64
  deriving Repr, DecidableEq

def Abi.ptrBytes : Abi → Nat
  | .ilp32 => 4
  | .lp64 => 8

/-- `SIZE_MAX + 1`. -/
def Abi.sizeMod (abi : Abi) : Nat := 256 ^ abi.ptrBytes

/-- `a - b` in `size_t`. -/
def sizeSub (abi : Abi) (a b : Nat) : Nat := (a + abi.sizeMod - b) % abi.sizeMod

/-! ## Block headers -/

/-- `MM_HALOW_BLOCK_ALIGN`. -/
def blockAlign : Nat := 8

/-- `MM_HALOW_BLOCK_ROUND(n)`: the sum wraps, the mask clears the low three bits. -/
def blockRound (abi : Abi) (n : Nat) : Nat :=
  (n + (blockAlign - 1)) % abi.sizeMod / blockAlign * blockAlign

/-- `MM_HALOW_BLOCK_HDR`: two words and a `bool`, padded to a word, rounded. -/
def blockHdr (abi : Abi) : Nat := blockRound abi (3 * abi.ptrBytes)

/-- `b->next`. -/
def blockNext (abi : Abi) (m : Mem) (b : Nat) : Nat := load m b abi.ptrBytes

/-- `b->size`. -/
def blockSize (abi : Abi) (m : Mem) (b : Nat) : Nat := load m (b + abi.ptrBytes) abi.ptrBytes

/-- `b->used`. -/
def blockUsed (abi : Abi) (m : Mem) (b : Nat) : Bool := m (b + 2 * abi.ptrBytes) != 0

def setBlockNext (abi : Abi) (m : Mem) (b v : Nat) : Mem := store m b abi.ptrBytes v

def setBlockSize (abi : Abi) (m : Mem) (b v : Nat) : Mem :=
  store m (b + abi.ptrBytes) abi.ptrBytes v

def setBlockUsed (abi : Abi) (m : Mem) (b : Nat) (v : Bool) : Mem :=
  Function.update m (b + 2 * abi.ptrBytes) (if v then 1 else 0)

/-- `MM_HALOW_BLOCK_DATA(b)`. -/
def blockData (abi : Abi) (b : Nat) : Nat := b + blockHdr abi

/-- `MM_HALOW_DATA_BLOCK(p)`. -/
def dataBlock (abi : Abi) (p : Nat) : Nat := p - blockHdr abi

/-! ## The allocator -/

/-- The pool's bytes, `mm_halow_heap_head` and `mm_halow_heap_mem`. -/
structure Heap where
  mem : Mem
  head : Nat
  heapMem : Nat

/-- `mm_halow_osal_init`. -/
def osalInit (abi : Abi) (heapSize portAlloc : Nat) (h : Heap) : Bool × Heap :=
  if h.heapMem ≠ 0 then (true, h)
  else if portAlloc = 0 then (false, h)
  else
    let m := setBlockNext abi h.mem portAlloc 0
    let m := setBlockSize abi m portAlloc (sizeSub abi heapSize (blockHdr abi))
    let m := setBlockUsed abi m portAlloc false
    (true, ⟨m, portAlloc, portAlloc⟩)

/-- The split inside `mm_halow_osal_malloc`: a new header behind `size` bytes of payload, when the
remainder can hold it and something useful. -/
def splitBlock (abi : Abi) (size : Nat) (m : Mem) (b : Nat) : Mem :=
  if (size + blockHdr abi + blockAlign) % abi.sizeMod ≤ blockSize abi m b then
    let split := b + blockHdr abi + size
    let m := setBlockNext abi m split (blockNext abi m b)
    let m := setBlockSize abi m split (sizeSub abi (sizeSub abi (blockSize abi m b) size) (blockHdr abi))
    let m := setBlockUsed abi m split false
    let m := setBlockNext abi m b split
    setBlockSize abi m b size
  else m

/-- The walk of `mm_halow_osal_malloc` from `b` on: the payload handed out (or `NULL`) and the
memory. -/
def mallocLoop (abi : Abi) (size : Nat) : Nat → Mem → Nat → Option (Nat × Mem)
  | 0, _, _ => none
  | fuel + 1, m, b =>
    if b = 0 then some (0, m)
    else if blockUsed abi m b = true ∨ blockSize abi m b < size then
      mallocLoop abi size fuel m (blockNext abi m b)
    else some (blockData abi b, setBlockUsed abi (splitBlock abi size m b) b true)

/-- `mm_halow_osal_malloc`. -/
def osalMalloc (abi : Abi) (heapSize size : Nat) (h : Heap) : Option (Nat × Heap) :=
  if size = 0 then some (0, h)
  else if size > heapSize then some (0, h)
  else
    let size := blockRound abi size
    if h.head = 0 then some (0, h)
    else (mallocLoop abi size (heapSize + 1) h.mem h.head).map fun r => (r.1, { h with mem := r.2 })

/-- The coalescing walk of `mm_halow_osal_free` from `b` on. -/
def coalesceLoop (abi : Abi) : Nat → Mem → Nat → Option Mem
  | 0, _, _ => none
  | fuel + 1, m, b =>
    if b = 0 then some m
    else if blockNext abi m b = 0 then some m
    else if blockUsed abi m b = false ∧ blockUsed abi m (blockNext abi m b) = false then
      let m := setBlockSize abi m b
        ((blockSize abi m b + (blockHdr abi + blockSize abi m (blockNext abi m b))) % abi.sizeMod)
      let m := setBlockNext abi m b (blockNext abi m (blockNext abi m b))
      coalesceLoop abi fuel m b
    else coalesceLoop abi fuel m (blockNext abi m b)

/-- `mm_halow_osal_free`. -/
def osalFree (abi : Abi) (heapSize ptr : Nat) (h : Heap) : Option Heap :=
  if ptr = 0 ∨ h.head = 0 then some h
  else
    let m := setBlockUsed abi h.mem (dataBlock abi ptr) false
    (coalesceLoop abi (heapSize + 1) m h.head).map fun m => { h with mem := m }

/-- `mmosal_calloc_`. -/
def mmosalCalloc (abi : Abi) (heapSize nitems size : Nat) (h : Heap) : Option (Nat × Heap) :=
  if nitems ≠ 0 ∧ size > (abi.sizeMod - 1) / nitems then some (0, h)
  else
    let total := nitems * size % abi.sizeMod
    (osalMalloc abi heapSize total h).map fun r =>
      if r.1 ≠ 0 then (r.1, { r.2 with mem := fill r.2.mem r.1 0 total }) else r

/-- `mmosal_realloc_`. -/
def mmosalRealloc (abi : Abi) (heapSize ptr size : Nat) (h : Heap) : Option (Nat × Heap) :=
  if ptr = 0 then osalMalloc abi heapSize size h
  else if size = 0 then (osalFree abi heapSize ptr h).map fun h => (0, h)
  else
    let oldSize := blockSize abi h.mem (dataBlock abi ptr)
    if oldSize ≥ size then some (ptr, h)
    else
      (osalMalloc abi heapSize size h).bind fun r =>
        if r.1 ≠ 0 then
          let h := { r.2 with mem := copy r.2.mem r.1 ptr oldSize }
          (osalFree abi heapSize ptr h).map fun h => (r.1, h)
        else some r

/-! ## Reading the block list back -/

/-- A block as its header says it is. -/
structure Block where
  addr : Nat
  size : Nat
  used : Bool
  deriving Repr, DecidableEq

/-- Follow `next` from `b` to `NULL`, as `mm_halow_heap_verify` does. -/
def blockList (abi : Abi) (m : Mem) : Nat → Nat → Option (List Block)
  | 0, _ => none
  | fuel + 1, b =>
    if b = 0 then some []
    else (blockList abi m fuel (blockNext abi m b)).map
      (⟨b, blockSize abi m b, blockUsed abi m b⟩ :: ·)

/-! ## Field accesses -/

section Fields

variable {abi : Abi} {m m' : Mem} {b v : Nat}

theorem ptrBytes_pos (abi : Abi) : 0 < abi.ptrBytes := by cases abi <;> decide

theorem blockHdr_pos (abi : Abi) : 0 < blockHdr abi := by cases abi <;> decide

theorem blockHdr_align (abi : Abi) : blockHdr abi % blockAlign = 0 := by cases abi <;> decide

/-- The three fields lie inside the header. -/
theorem fields_le_hdr (abi : Abi) : 2 * abi.ptrBytes + 1 ≤ blockHdr abi := by
  cases abi <;> decide

/-- A header is read from its own bytes only. -/
theorem header_congr (abi : Abi) (b : Nat) (h : ∀ x, b ≤ x → x < b + blockHdr abi → m' x = m x) :
    blockNext abi m' b = blockNext abi m b ∧ blockSize abi m' b = blockSize abi m b ∧
      blockUsed abi m' b = blockUsed abi m b := by
  have hf := fields_le_hdr abi
  refine ⟨load_congr fun x h1 h2 => h x h1 (by omega),
    load_congr fun x h1 h2 => h x (by omega) (by omega), ?_⟩
  unfold blockUsed
  rw [h _ (by omega) (by omega)]

@[simp] theorem blockNext_setSize : blockNext abi (setBlockSize abi m b v) b = blockNext abi m b :=
  load_store_other (Or.inl (le_refl _))

@[simp] theorem blockUsed_setSize : blockUsed abi (setBlockSize abi m b v) b = blockUsed abi m b := by
  unfold blockUsed setBlockSize
  rw [store_out (Or.inr (by omega))]

@[simp] theorem blockSize_setNext : blockSize abi (setBlockNext abi m b v) b = blockSize abi m b :=
  load_store_other (Or.inr (le_refl _))

@[simp] theorem blockUsed_setNext : blockUsed abi (setBlockNext abi m b v) b = blockUsed abi m b := by
  have hp := ptrBytes_pos abi
  unfold blockUsed setBlockNext
  rw [store_out (Or.inr (by omega))]

@[simp] theorem blockNext_setUsed {u : Bool} :
    blockNext abi (setBlockUsed abi m b u) b = blockNext abi m b := by
  have hp := ptrBytes_pos abi
  exact load_congr fun x h1 h2 => Function.update_of_ne (by omega) _ _

@[simp] theorem blockSize_setUsed {u : Bool} :
    blockSize abi (setBlockUsed abi m b u) b = blockSize abi m b :=
  load_congr fun x h1 h2 => Function.update_of_ne (by omega) _ _

@[simp] theorem blockUsed_setUsed {u : Bool} : blockUsed abi (setBlockUsed abi m b u) b = u := by
  unfold blockUsed setBlockUsed
  rw [Function.update_self]
  cases u <;> rfl

theorem blockNext_setNext (h : v < abi.sizeMod) : blockNext abi (setBlockNext abi m b v) b = v :=
  load_store h

theorem blockSize_setSize (h : v < abi.sizeMod) : blockSize abi (setBlockSize abi m b v) b = v :=
  load_store h

/-- A setter writes inside its own header. -/
theorem setBlockNext_out {x : Nat} (h : x < b ∨ b + blockHdr abi ≤ x) :
    setBlockNext abi m b v x = m x := by
  have hf := fields_le_hdr abi
  exact store_out (by omega)

theorem setBlockSize_out {x : Nat} (h : x < b ∨ b + blockHdr abi ≤ x) :
    setBlockSize abi m b v x = m x := by
  have hf := fields_le_hdr abi
  exact store_out (by omega)

theorem setBlockUsed_out {x : Nat} {u : Bool} (h : x < b ∨ b + blockHdr abi ≤ x) :
    setBlockUsed abi m b u x = m x := by
  have hf := fields_le_hdr abi
  exact Function.update_of_ne (by omega) _ _

end Fields

/-! ## `size_t` arithmetic -/

theorem sizeSub_eq {abi : Abi} {a b : Nat} (h : b ≤ a) (ha : a < abi.sizeMod) :
    sizeSub abi a b = a - b := by
  unfold sizeSub
  rw [show a + abi.sizeMod - b = a - b + abi.sizeMod by omega, Nat.add_mod_right,
    Nat.mod_eq_of_lt (by omega)]

/-- Without wrapping, rounding gives the next multiple of the alignment. -/
theorem blockRound_eq {abi : Abi} {n : Nat} (h : n + 7 < abi.sizeMod) :
    blockRound abi n = (n + 7) / 8 * 8 := by
  unfold blockRound blockAlign
  rw [Nat.mod_eq_of_lt h]

end MmHalow.Osal
